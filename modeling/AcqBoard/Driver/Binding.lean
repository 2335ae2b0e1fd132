import AcqBoard.Schemes.Run
import Mathlib.Data.Int.Notation

/-! Binding `xfifo_dma` to its device.

    `xfifo_dma_probe` takes what the driver needs from the kernel, one thing after the other, and on
    the way out of a failure it calls `xfifo_dma_remove`, which gives everything back, whether it was
    taken or not. The driver core calls `probe` for a device that is not bound, binds it if the result
    is 0, and calls `remove` for one that is.

    A failure is clean only where what `remove` gives back is what `probe` has taken, and where
    `status` is an error by then. Behind the client data nothing is a failure any more: the driver is
    bound whether or not it got its character device and its entry under /proc. -/

namespace AcqBoard.Driver.Binding
open Schemes

/-- `cdev_init` and `cdev_add`; zeroed where there is no device structure either. -/
inductive Cdev where
  | zeroed | initialised | added
  deriving DecidableEq

/-- What the driver holds, and whether it is bound. -/
structure XfifoDmaHeld where
  dev : Bool         -- the memory that `xfifo_dma_dev` points to
  chrdev : Bool      -- the device number
  cdev : Cdev
  region : Bool      -- the memory region
  virtaddr : Bool    -- its mapping; `dev_virtaddr` is null without one
  clientData : Bool
  proc : Bool        -- the entry under /proc
  bound : Bool
  deriving DecidableEq

def XfifoDmaHeld.init : XfifoDmaHeld := ⟨false, false, .zeroed, false, false, false, false, false⟩

/-- What the kernel answers in the course of a `probe`. -/
structure ProbeAnswers where
  resource : Bool    -- `platform_get_resource`
  dev : Bool         -- `kmalloc` of the device structure
  chrdev : Bool      -- `register_chrdev_region`
  region : Bool      -- `request_mem_region`
  map : Bool         -- `ioremap`
  clientData : Bool  -- `kmalloc` of the client data
  cdev : Bool        -- `cdev_add`
  proc : Bool        -- `create_proc_entry`
  deriving DecidableEq

/-- Undefined behaviour in the kernel. -/
inductive BindFault where
  | freedDev       -- the device structure is used after it was freed
  | zeroedCdev     -- `cdev_del` without `cdev_init`
  | foreignChrdev  -- the device number of somebody else is given back
  | nullWrite      -- `iowrite32` without a mapping
  deriving DecidableEq

def xfifoDmaRemove (s : XfifoDmaHeld) : Except BindFault XfifoDmaHeld :=
  if s.dev = false then .error .freedDev
  else if s.cdev = .zeroed then .error .zeroedCdev
  else if s.chrdev = false then .error .foreignChrdev
  else .ok { s with
    dev := false
    cdev := .zeroed  -- deleted, and freed with the structure
    chrdev := false
    region := if s.virtaddr then false else s.region  -- only with `dev_virtaddr`
    virtaddr := false
    clientData := false
    proc := false }

def xfifoDmaResetFifo (s : XfifoDmaHeld) : Except BindFault Unit :=
  if s.virtaddr then .ok () else .error .nullWrite

/-- `fail:`. -/
def probeFail (s : XfifoDmaHeld) (status : ℤ) : Except BindFault (ℤ × XfifoDmaHeld) := do
  let s ← xfifoDmaRemove s
  pure (status, s)

/-- `status` is that of `register_chrdev_region` up to the request for the region; the result of
    `cdev_add` is dropped. -/
def xfifoDmaProbe (a : ProbeAnswers) (s : XfifoDmaHeld) : Except BindFault (ℤ × XfifoDmaHeld) :=
  if a.resource = false then .ok (-19, s)  -- `-ENODEV`
  else if a.dev = false then .ok (-12, { s with dev := false })  -- `-ENOMEM`
  else
    let s := { s with dev := true, cdev := .zeroed, virtaddr := false, clientData := false }
    if a.chrdev = false then probeFail s (-16)  -- `-EBUSY`
    else
      let s := { s with chrdev := true, cdev := .initialised }
      if a.region = false then probeFail s (-19)
      else
        let s := { s with region := true, virtaddr := a.map }
        if a.clientData = false then probeFail s 0
        else do
          let s := { s with
            clientData := true
            cdev := if a.cdev then .added else .initialised
            proc := a.proc }
          xfifoDmaResetFifo s
          pure (0, s)

inductive BindEvent where
  | bind (a : ProbeAnswers)
  | unbind

/-- The driver core. -/
def bindStep (s : XfifoDmaHeld) : BindEvent → Except BindFault XfifoDmaHeld
  | .bind a =>
    if s.bound then .ok s
    else do
      let r ← xfifoDmaProbe a s
      pure { r.2 with bound := r.1 = 0 }
  | .unbind =>
    if s.bound then do
      let s ← xfifoDmaRemove s
      pure { s with bound := false }
    else .ok s

/-- A driver that is bound has its structure, its number, the region with its mapping and the client
    data, and one that is not has nothing. -/
structure Consistent (s : XfifoDmaHeld) : Prop where
  dev : s.dev = s.bound
  chrdev : s.chrdev = s.bound
  region : s.region = s.bound
  virtaddr : s.virtaddr = s.bound
  clientData : s.clientData = s.bound
  cdev : s.cdev = .zeroed ↔ s.bound = false
  proc : s.bound = false → s.proc = false

/-- Moreover one that is bound has its character device and its entry under /proc. -/
structure Balanced (s : XfifoDmaHeld) : Prop extends Consistent s where
  device : s.cdev = .added ↔ s.bound = true
  entry : s.proc = s.bound

/-- The kernel refuses at a point where `probe` copes with it, or behind the client data. -/
def ProbeAnswers.Clean (a : ProbeAnswers) : Prop :=
  a.resource = true → a.dev = true →
    a.chrdev = true ∧ (a.region = true → a.map = true ∧ a.clientData = true)

/-- Nor does it refuse there. -/
def ProbeAnswers.Full (a : ProbeAnswers) : Prop :=
  a.Clean ∧ (a.resource = true → a.dev = true → a.region = true → a.cdev = true ∧ a.proc = true)

instance (a : ProbeAnswers) : Decidable a.Clean := inferInstanceAs (Decidable (_ → _))

/-- A `probe` of an unbound device meets a kernel that is clean. -/
def CleanBind (s : XfifoDmaHeld) : BindEvent → Prop
  | .bind a => s.bound = false → a.Clean
  | .unbind => True

/-- And one that refuses nothing behind the client data. -/
def FullBind (s : XfifoDmaHeld) : BindEvent → Prop
  | .bind a => s.bound = false → a.Full
  | .unbind => True

theorem consistent_init : Consistent .init :=
  ⟨rfl, rfl, rfl, rfl, rfl, iff_of_true rfl rfl, fun _ => rfl⟩

theorem balanced_init : Balanced .init := ⟨consistent_init, by decide, rfl⟩

/-- Where nothing is bound and nothing is held, all of it is balanced. -/
theorem Consistent.balanced {s : XfifoDmaHeld} (hs : Consistent s) (hb : s.bound = false) :
    Balanced s := by
  refine ⟨hs, ?_, (hs.proc hb).trans hb.symm⟩
  rw [hs.cdev.mpr hb, hb]
  decide

/-- `remove` of a bound driver leaves nothing behind. -/
theorem consistent_unbind {s : XfifoDmaHeld} (hs : Consistent s) :
    ∃ t, bindStep s .unbind = .ok t ∧ Consistent t ∧ t.bound = false := by
  cases hb : s.bound with
  | false => exact ⟨s, by rw [bindStep, hb]; rfl, hs, hb⟩
  | true =>
    obtain ⟨hdev, hchrdev, -, hvirt, -, hcdev, -⟩ := hs
    rw [hb] at hdev hchrdev hvirt hcdev
    have hremove : xfifoDmaRemove s = .ok { s with
        dev := false, cdev := .zeroed, chrdev := false, region := false, virtaddr := false,
        clientData := false, proc := false } := by
      rw [xfifoDmaRemove, hdev, hchrdev, hvirt, if_neg (by decide),
        if_neg fun hz => absurd (hcdev.mp hz) (by decide), if_neg (by decide)]
      rfl
    exact ⟨_, by rw [bindStep, hb, hremove]; rfl,
      ⟨rfl, rfl, rfl, rfl, rfl, iff_of_true rfl rfl, fun _ => rfl⟩, rfl⟩

/-- Where the kernel is clean, `probe` leaves the driver unbound with nothing, if the kernel refused,
    or bound, and then with as much as it answered behind the client data. -/
theorem consistent_bind {s : XfifoDmaHeld} (hs : Consistent s) (hb : s.bound = false)
    {a : ProbeAnswers} (ha : a.Clean) : ∃ t, bindStep s (.bind a) = .ok t ∧ Consistent t ∧
      t.bound = (a.resource && a.dev && a.region) ∧
      (t.bound = true → (t.cdev = .added ↔ a.cdev = true) ∧ t.proc = a.proc) := by
  obtain ⟨hdev, hchrdev, hregion, hvirt, hclient, hcdev, hproc⟩ := hs
  obtain ⟨dev, chrdev, cdev, region, virtaddr, clientData, proc, bound⟩ := s
  obtain ⟨resource, aDev, aChrdev, aRegion, aMap, aClient, aCdev, aProc⟩ := a
  dsimp only at hb hdev hchrdev hregion hvirt hclient hcdev hproc
  subst hb hdev hchrdev hregion hvirt hclient
  obtain rfl := hcdev.mpr rfl
  obtain rfl := hproc rfl
  have hnothing : Consistent ⟨false, false, .zeroed, false, false, false, false, false⟩ :=
    consistent_init
  cases resource with
  | false => exact ⟨_, rfl, hnothing, rfl, fun h => nomatch h⟩
  | true =>
    cases aDev with
    | false => exact ⟨_, rfl, hnothing, rfl, fun h => nomatch h⟩
    | true =>
      obtain ⟨hchr, hrest⟩ := ha rfl rfl
      dsimp only at hchr hrest
      subst hchr
      cases aRegion with
      | false => exact ⟨_, rfl, hnothing, rfl, fun h => nomatch h⟩
      | true =>
        obtain ⟨hmap, hclient⟩ := hrest rfl
        subst hmap hclient
        refine ⟨_, rfl, ⟨rfl, rfl, rfl, rfl, rfl, ?_, fun h => nomatch h⟩, rfl, fun _ => ⟨?_, rfl⟩⟩
        · cases aCdev <;> exact iff_of_false (fun h => nomatch h) (fun h => nomatch h)
        · cases aCdev with
          | true => exact iff_of_true rfl rfl
          | false => exact iff_of_false (fun h => nomatch h) (fun h => nomatch h)

/-- Where it is not, `probe` faults, or the driver core takes the driver for bound though it holds
    nothing, and faults when it unbinds it. -/
theorem bind_unclean {s : XfifoDmaHeld} (hs : Consistent s) (hb : s.bound = false) {a : ProbeAnswers}
    (ha : ¬ a.Clean) : (∃ f, bindStep s (.bind a) = .error f) ∨
      ∃ t, bindStep s (.bind a) = .ok t ∧ t.bound = true ∧ t.dev = false ∧
        bindStep t .unbind = .error .freedDev := by
  obtain ⟨hdev, hchrdev, hregion, hvirt, hclient, -, -⟩ := hs
  obtain ⟨dev, chrdev, cdev, region, virtaddr, clientData, proc, bound⟩ := s
  obtain ⟨resource, aDev, aChrdev, aRegion, aMap, aClient, aCdev, aProc⟩ := a
  dsimp only at hb hdev hchrdev hregion hvirt hclient
  subst hb hdev hchrdev hregion hvirt hclient
  obtain ⟨hres, hmore⟩ := Classical.not_imp.mp ha
  obtain ⟨hmem, hrest⟩ := Classical.not_imp.mp hmore
  dsimp only at hres hmem hrest
  subst hres hmem
  cases aChrdev with
  | false => exact Or.inl ⟨_, rfl⟩
  | true =>
    obtain ⟨hreg, hlast⟩ := Classical.not_imp.mp fun h => hrest ⟨rfl, h⟩
    subst hreg
    cases aClient with
    | false => exact Or.inr ⟨_, rfl, rfl, rfl, rfl⟩
    | true =>
      have hmap : aMap = false := Bool.eq_false_iff.mpr fun hmap => hlast ⟨hmap, rfl⟩
      subst hmap
      exact Or.inl ⟨_, rfl⟩

/-- STEP: consistency needs the clean kernel. -/
theorem bindStep_iff {s : XfifoDmaHeld} {e : BindEvent} (hs : Consistent s) :
    (∃ t, bindStep s e = .ok t ∧ Consistent t) ↔ CleanBind s e := by
  cases e with
  | unbind =>
    obtain ⟨t, ht, hcons, -⟩ := consistent_unbind hs
    exact iff_of_true ⟨t, ht, hcons⟩ trivial
  | bind a =>
    cases hb : s.bound with
    | true => exact iff_of_true ⟨s, by rw [bindStep, hb]; rfl, hs⟩ fun h => by rw [hb] at h; cases h
    | false =>
      constructor
      · rintro ⟨t, ht, hcons⟩ -
        by_contra ha
        rcases bind_unclean hs hb ha with ⟨f, hf⟩ | ⟨u, hu, hbound, hdev, -⟩
        · rw [ht] at hf
          cases hf
        · obtain rfl : t = u := by simpa [ht] using hu
          have hdev' := hcons.dev
          rw [hbound, hdev] at hdev'
          cases hdev'
      · intro ha
        obtain ⟨t, ht, hcons, -⟩ := consistent_bind hs hb (ha hb)
        exact ⟨t, ht, hcons⟩

/-- STEP: balance needs the last two answers too. -/
theorem bindStep_balanced_iff {s : XfifoDmaHeld} {e : BindEvent} (hs : Balanced s) :
    (∃ t, bindStep s e = .ok t ∧ Balanced t) ↔ FullBind s e := by
  have hcons := hs.toConsistent
  cases e with
  | unbind =>
    obtain ⟨t, ht, hcons', hb⟩ := consistent_unbind hcons
    exact iff_of_true ⟨t, ht, hcons'.balanced hb⟩ trivial
  | bind a =>
    cases hb : s.bound with
    | true => exact iff_of_true ⟨s, by rw [bindStep, hb]; rfl, hs⟩ fun h => by rw [hb] at h; cases h
    | false =>
      constructor
      · rintro ⟨t, ht, hbal⟩ -
        have ha : a.Clean := (bindStep_iff hcons).mp ⟨t, ht, hbal.toConsistent⟩ hb
        obtain ⟨u, hu, -, hbound, hlast⟩ := consistent_bind hcons hb ha
        obtain rfl : t = u := by simpa [ht] using hu
        refine ⟨ha, fun hres hdev hreg => ?_⟩
        rw [hres, hdev, hreg] at hbound
        obtain ⟨hcdev, hproc⟩ := hlast hbound
        exact ⟨hcdev.mp (hbal.device.mpr hbound), hproc.symm.trans (hbal.entry.trans hbound)⟩
      · intro h
        obtain ⟨ha, hfull⟩ := h hb
        obtain ⟨t, ht, hcons', hbound, hlast⟩ := consistent_bind hcons hb ha
        refine ⟨t, ht, ?_⟩
        cases hbt : t.bound with
        | false => exact hcons'.balanced hbt
        | true =>
          obtain ⟨hcdev, hproc⟩ := hlast hbt
          have hall : (a.resource && a.dev && a.region) = true := hbound.symm.trans hbt
          rw [Bool.and_eq_true, Bool.and_eq_true] at hall
          obtain ⟨hac, hap⟩ := hfull hall.1.1 hall.1.2 hall.2
          exact ⟨hcons', iff_of_true (hcdev.mpr hac) hbt, (hproc.trans hap).trans hbt.symm⟩

/-- CORRECT (binding): over any number of binds and unbinds, nothing faults and the driver has its
    structure, number, region, mapping and client data while it is bound and nothing at all while it is
    not, exactly if no `probe` meets a device number that is taken, and none is refused the mapping or
    the client data behind a region that it got; it has its character device and its entry under /proc
    too whenever it is bound, exactly if moreover none is refused these. A `probe` of the first kind
    faults at once or when it is unbound. -/
theorem balanced_iff_clean (es : List BindEvent) :
    (Always bindStep Consistent .init es ↔ Meets bindStep CleanBind .init es) ∧
    (Always bindStep Balanced .init es ↔ Meets bindStep FullBind .init es) ∧
    ∀ (s : XfifoDmaHeld) (a : ProbeAnswers), Consistent s → s.bound = false → ¬ a.Clean →
      ∃ f, run bindStep s [.bind a, .unbind] = .error f := by
  refine ⟨?_, ?_, fun s a hs hb ha => ?_⟩
  · exact always_iff_meets_self (fun _ => True) (fun hs _ => bindStep_iff hs) consistent_init
      fun _ _ => trivial
  · exact always_iff_meets_self (fun _ => True) (fun hs _ => bindStep_balanced_iff hs) balanced_init
      fun _ _ => trivial
  · rcases bind_unclean hs hb ha with ⟨f, hf⟩ | ⟨t, ht, -, -, hunbind⟩
    · exact ⟨f, bind_eq_error.mpr (Or.inl hf)⟩
    · exact ⟨.freedDev, bind_eq_error.mpr (Or.inr ⟨t, ht, bind_eq_error.mpr (Or.inl hunbind)⟩)⟩

/-- Without memory for the client data the driver is bound to a structure that is already free. -/
theorem balanced_iff_clean_freed : ∃ f, run bindStep .init
    [.bind ⟨true, true, true, true, true, false, true, true⟩, .unbind] = .error f :=
  (balanced_iff_clean []).2.2 .init _ consistent_init rfl (by decide)

/-- A refused `cdev_add`: the driver is bound without its device, and nothing faults. -/
example : ∃ t, run bindStep .init [.bind ⟨true, true, true, true, true, true, false, true⟩] = .ok t ∧
    t.bound = true ∧ t.cdev = .initialised := ⟨_, rfl, rfl, rfl⟩

end AcqBoard.Driver.Binding
