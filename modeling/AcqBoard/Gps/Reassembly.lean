import AcqBoard.Gps.Frame

/-! `proc_gps` collects the bytes between a dollar sign and a carriage return.

    Only these two bytes ever reset the index, and nothing bounds it: `sbuff` has room for the dollar
    sign, 254 bytes and the NUL. The invariant of the buffer holds after every byte exactly if no
    byte of a frame arrives when the buffer is full. -/

namespace AcqBoard.Gps
open Schemes

/-- The receiver, and the bytes it got since the last dollar sign. -/
structure Heard where
  rx : Receiver
  heard : List UInt8

def heardStep (s : Heard) (i : UInt8 × Env) : Except Fault Heard := do
  let r ← gpsByte s.rx i.2 i.1
  pure ⟨r.1, if i.1 = byte '$' then [] else s.heard ++ [i.1]⟩

/-- `proc_gps` called on one buffer after the other. -/
def procCalls : Receiver → List (List (UInt8 × Env)) → Except Fault Receiver
  | g, [] => .ok g
  | g, buff :: calls => do
    let r ← procGps g buff
    procCalls r.1 calls

/-- A frame is being collected: the buffer holds the dollar sign, the bytes since and a NUL. -/
structure Collecting (s : Heard) : Prop where
  low : 1 ≤ s.rx.sIndex
  high : s.rx.sIndex ≤ 255
  dollar : s.rx.sbuff.mem 0 = byte '$'
  nul : s.rx.sbuff.mem s.rx.sIndex.toNat = 0
  length : s.rx.sIndex = s.heard.length + 1
  bytes : ∀ k v, s.heard[k]? = some v → s.rx.sbuff.mem (k + 1) = v
  plain : ∀ b ∈ s.heard, b ≠ byte '$' ∧ b ≠ 13

/-- The law: no frame, or one that is being collected. -/
def Reassembled (s : Heard) : Prop := s.rx.sIndex = -1 ∨ Collecting s

/-- The byte does not find the buffer full. -/
def HasRoom (s : Heard) (i : UInt8 × Env) : Prop :=
  i.1 ≠ byte '$' → i.1 ≠ 13 → s.rx.sIndex ≠ 255

instance (s : Heard) (i : UInt8 × Env) : Decidable (HasRoom s i) :=
  inferInstanceAs (Decidable (_ → _ → _))

/-! ### One byte -/

theorem gpsChecksum_error {b : Sbuff} {f : Fault} (h : gpsChecksum b = .error f) :
    f = .nullPointer := by
  unfold gpsChecksum at h
  split at h
  · exact (Except.error.inj h).symm
  · simp at h

theorem cmdLoop_error {b : Sbuff} {cmdList : ℕ → Option ℕ} {room i ptr1 : ℕ} {f : Fault}
    (h : cmdLoop b cmdList i ptr1 room = .error f) : f = .tableFull := by
  induction room generalizing b cmdList i ptr1 with
  | zero => exact (Except.error.inj h).symm
  | succ room ih =>
    unfold cmdLoop at h
    dsimp only at h
    split at h
    · simp at h
    · exact ih h

theorem field_error {g : Receiver} {j : ℕ} {f : Fault} (h : g.field j = .error f) :
    f = .nullPointer := by
  unfold Receiver.field at h
  split at h
  · exact (Except.error.inj h).symm
  · simp at h

theorem gpsGpgga_error {g : Receiver} {f : Fault} (h : gpsGpgga g = .error f) :
    f = .nullPointer := by
  rcases bind_eq_error.mp h with h | ⟨header, -, h⟩
  · exact field_error h
  split at h
  · simp [pure, Except.pure] at h
  rcases bind_eq_error.mp h with h | ⟨used, -, h⟩
  · exact field_error h
  rcases bind_eq_error.mp h with h | ⟨height, -, h⟩
  · exact field_error h
  · simp [pure, Except.pure] at h

theorem gprmcDate_error {g : Receiver} {speed : List UInt8} {f : Fault}
    (h : gprmcDate g speed = .error f) : f = .nullPointer := by
  unfold gprmcDate at h
  split at h
  · rcases bind_eq_error.mp h with h | ⟨date, -, h⟩
    · exact field_error h
    · simp [pure, Except.pure] at h
  · simp [pure, Except.pure] at h

theorem gpsGprmc_error {g : Receiver} {x : Env} {f : Fault} (h : gpsGprmc g x = .error f) :
    f = .nullPointer := by
  rcases bind_eq_error.mp h with h | ⟨header, -, h⟩
  · exact field_error h
  split at h
  · simp [pure, Except.pure] at h
  rcases bind_eq_error.mp h with h | ⟨time, -, h⟩
  · exact field_error h
  rcases bind_eq_error.mp h with h | ⟨speed, -, h⟩
  · exact field_error h
  rcases bind_eq_error.mp h with h | ⟨date, -, h⟩
  · exact gprmcDate_error h
  rcases bind_eq_error.mp h with h | ⟨latitude, -, h⟩
  · exact field_error h
  rcases bind_eq_error.mp h with h | ⟨longitude, -, h⟩
  · exact field_error h
  rcases bind_eq_error.mp h with h | ⟨ns, -, h⟩
  · exact field_error h
  rcases bind_eq_error.mp h with h | ⟨ew, -, h⟩
  · exact field_error h
  rcases bind_eq_error.mp h with h | ⟨status, -, h⟩
  · exact field_error h
  · simp [pure, Except.pure] at h

theorem cutFrame_error {g : Receiver} {f : Fault} (h : cutFrame g = .error f) : f ≠ .overflow := by
  rcases bind_eq_error.mp h with h | ⟨c, -, h⟩
  · rw [cmdLoop_error h]; simp
  split at h
  · rw [← Except.error.inj h]; simp
  split at h
  · simp [pure, Except.pure] at h
  · simp [pure, Except.pure] at h

/-- A frame's end never overruns `sbuff`. -/
theorem frameEnd_error {g : Receiver} {x : Env} {f : Fault} (h : frameEnd g x = .error f) :
    f ≠ .overflow := by
  rcases bind_eq_error.mp h with h | ⟨wrong, -, h⟩
  · rw [gpsChecksum_error h]; simp
  split at h
  · simp [pure, Except.pure] at h
  rcases bind_eq_error.mp h with h | ⟨r, -, h⟩
  · rcases bind_eq_error.mp h with h | ⟨c, -, h⟩
    · exact cutFrame_error h
    split at h
    · rcases bind_eq_error.mp h with h | ⟨g', -, h⟩
      · rw [gpsGpgga_error h]; simp
      · rw [gpsGprmc_error h]; simp
    · simp [pure, Except.pure] at h
  · simp [pure, Except.pure] at h

theorem frameEnd_ok {g : Receiver} {x : Env} {r : Receiver × List Int32}
    (h : frameEnd g x = .ok r) : r.1.sIndex = -1 := by
  obtain ⟨wrong, -, h⟩ := bind_eq_ok.mp h
  split at h
  · rw [← pure_eq_ok.mp h]
  · obtain ⟨r', -, h⟩ := bind_eq_ok.mp h
    rw [← pure_eq_ok.mp h]

/-- What a byte does, by its kind and the state it finds. -/
theorem gpsByte_dollar (g : Receiver) (x : Env) : gpsByte g x (byte '$') =
    .ok ({ g with sbuff := g.sbuff.put 0 (byte '$') (by decide), sIndex := 1 }, []) := by
  rw [gpsByte, if_pos rfl]

theorem gpsByte_idle {g : Receiver} {b : UInt8} (hi : g.sIndex = -1) (hb : b ≠ byte '$') (x : Env) :
    gpsByte g x b = .ok (g, []) := by
  rw [gpsByte, if_neg hb, if_pos hi]

theorem gpsByte_end {g : Receiver} (hi : g.sIndex ≠ -1) (x : Env) :
    gpsByte g x 13 = frameEnd g x := by
  rw [gpsByte, if_neg (by decide), if_neg hi, if_pos rfl]

theorem gpsByte_data {g : Receiver} {b : UInt8} (hlow : 1 ≤ g.sIndex) (hhigh : g.sIndex < 255)
    (hb : b ≠ byte '$') (hcr : b ≠ 13) (x : Env) : gpsByte g x b =
      .ok ({ g with
        sbuff := g.sbuff.put g.sIndex.toNat b (by omega), sIndex := g.sIndex + 1 }, []) := by
  rw [gpsByte, if_neg hb, if_neg (by omega), if_neg hcr, dif_pos (by omega)]

theorem gpsByte_full {g : Receiver} {b : UInt8} (hfull : g.sIndex = 255)
    (hb : b ≠ byte '$') (hcr : b ≠ 13) (x : Env) : gpsByte g x b = .error .overflow := by
  rw [gpsByte, if_neg hb, if_neg (by omega), if_neg hcr, dif_neg (by omega)]

/-- A dollar sign starts a frame. -/
theorem collecting_dollar (g : Receiver) :
    Collecting ⟨{ g with sbuff := g.sbuff.put 0 (byte '$') (by decide), sIndex := 1 }, []⟩ := by
  constructor <;> dsimp only
  · omega
  · omega
  · exact Sbuff.put_self _ _ _
  · exact Sbuff.put_nul _ _ (p := 0) _
  · rfl
  · intro k v hk
    simp at hk
  · simp

/-- A data byte that finds room is collected. -/
theorem collecting_data {s : Heard} {b : UInt8} (hs : Collecting s) (hroom : s.rx.sIndex < 255)
    (hb : b ≠ byte '$') (hcr : b ≠ 13) (h : s.rx.sIndex.toNat + 1 < 256) :
    Collecting ⟨{ s.rx with
      sbuff := s.rx.sbuff.put s.rx.sIndex.toNat b h, sIndex := s.rx.sIndex + 1 },
      s.heard ++ [b]⟩ := by
  have hlow := hs.low
  have hlen := hs.length
  constructor <;> dsimp only
  · omega
  · omega
  · rw [Sbuff.put_lt _ _ _ (by omega)]
    exact hs.dollar
  · have hnat : (s.rx.sIndex + 1).toNat = s.rx.sIndex.toNat + 1 := by omega
    rw [hnat]
    exact Sbuff.put_nul _ _ _
  · rw [hlen, List.length_append]
    push_cast
    rfl
  · intro k v hk
    rw [List.getElem?_append] at hk
    split at hk
    · rw [Sbuff.put_lt _ _ _ (by omega)]
      exact hs.bytes k v hk
    · obtain ⟨hlt, rfl⟩ := List.getElem?_eq_some_iff.mp hk
      have hpos : k + 1 = s.rx.sIndex.toNat := by
        rw [List.length_singleton] at hlt
        omega
      rw [hpos, List.getElem_singleton]
      exact Sbuff.put_self _ _ _
  · exact List.forall_mem_append.mpr ⟨hs.plain, by simpa using ⟨hb, hcr⟩⟩

theorem heardStep_ok {s t : Heard} {i : UInt8 × Env} (h : heardStep s i = .ok t) :
    ∃ r, gpsByte s.rx i.2 i.1 = .ok r ∧
      t = ⟨r.1, if i.1 = byte '$' then [] else s.heard ++ [i.1]⟩ := by
  obtain ⟨r, hr, h⟩ := bind_eq_ok.mp h
  exact ⟨r, hr, (pure_eq_ok.mp h).symm⟩

theorem heardStep_of_ok {s : Heard} {b : UInt8} {x : Env} {r : Receiver × List Int32}
    (h : gpsByte s.rx x b = .ok r) :
    heardStep s (b, x) = .ok ⟨r.1, if b = byte '$' then [] else s.heard ++ [b]⟩ := by
  rw [heardStep, h]; rfl

theorem heardStep_of_error {s : Heard} {b : UInt8} {x : Env} {f : Fault}
    (h : gpsByte s.rx x b = .error f) : heardStep s (b, x) = .error f := by
  rw [heardStep, h]; rfl

/-- A byte neither overruns the buffer nor breaks the invariant exactly if it has room. -/
theorem reassembled_step {s : Heard} {i : UInt8 × Env} (hs : Reassembled s) :
    (heardStep s i ≠ .error .overflow ∧ ∀ t, heardStep s i = .ok t → Reassembled t) ↔
      HasRoom s i := by
  obtain ⟨b, x⟩ := i
  have htaken : ∀ {r : Receiver × List Int32}, gpsByte s.rx x b = .ok r →
      Reassembled ⟨r.1, if b = byte '$' then [] else s.heard ++ [b]⟩ →
      heardStep s (b, x) ≠ .error .overflow ∧
        ∀ t, heardStep s (b, x) = .ok t → Reassembled t := by
    intro r hr ht
    rw [heardStep_of_ok hr]
    exact ⟨by simp, fun t h => Except.ok.inj h ▸ ht⟩
  by_cases hb : b = byte '$'
  -- a dollar sign starts a frame in every state
  · subst hb
    refine iff_of_true (htaken (gpsByte_dollar s.rx x) (Or.inr ?_)) (fun h => absurd rfl h)
    rw [if_pos rfl]
    exact collecting_dollar s.rx
  by_cases hi : s.rx.sIndex = -1
  · exact iff_of_true (htaken (gpsByte_idle hi hb x) (Or.inl hi)) (fun _ _ h => by omega)
  have hcol : Collecting s := hs.resolve_left hi
  by_cases hcr : b = 13
  -- a carriage return ends the frame, whatever becomes of it
  · subst hcr
    refine iff_of_true ?_ (fun _ h => absurd rfl h)
    have hbyte := gpsByte_end hi x
    cases hend : frameEnd s.rx x with
    | error f =>
      rw [heardStep_of_error (hbyte.trans hend)]
      exact ⟨by simpa using frameEnd_error hend, fun t h => by simp at h⟩
    | ok r => exact htaken (hbyte.trans hend) (Or.inl (frameEnd_ok hend))
  have hlow := hcol.low
  have hhigh := hcol.high
  by_cases hfull : s.rx.sIndex = 255
  · refine iff_of_false (fun h => h.1 ?_) (fun h => h hb hcr hfull)
    exact heardStep_of_error (gpsByte_full hfull hb hcr x)
  · have hlt : s.rx.sIndex < 255 := by omega
    refine iff_of_true (htaken (gpsByte_data hlow hlt hb hcr x) (Or.inr ?_)) (fun _ _ => hfull)
    rw [if_neg hb]
    exact collecting_data hcol hlt hb hcr _

/-! ### The stream -/

/-- A call of `proc_gps` ends in the state its bytes lead to. -/
theorem procGps_of_run {buff : List (UInt8 × Env)} {s t : Heard}
    (h : run heardStep s buff = .ok t) : ∃ calls, procGps s.rx buff = .ok (t.rx, calls) := by
  induction buff generalizing s with
  | nil =>
    obtain rfl := Except.ok.inj h
    exact ⟨[], rfl⟩
  | cons i buff ih =>
    obtain ⟨u, hu, h⟩ := run_cons_ok.mp h
    obtain ⟨r, hr, rfl⟩ := heardStep_ok hu
    obtain ⟨calls, hrest⟩ := ih h
    exact ⟨r.2 ++ calls, by rw [procGps, hr]; simp [bind, Except.bind, hrest, pure, Except.pure]⟩

/-- How the stream is cut into calls does not matter. -/
theorem procCalls_of_run {calls : List (List (UInt8 × Env))} {s t : Heard}
    (h : run heardStep s calls.flatten = .ok t) : procCalls s.rx calls = .ok t.rx := by
  induction calls generalizing s with
  | nil =>
    obtain rfl := Except.ok.inj h
    rfl
  | cons buff calls ih =>
    rw [List.flatten_cons] at h
    obtain ⟨u, hu, h⟩ := run_append_ok.mp h
    obtain ⟨_, hbuff⟩ := procGps_of_run hu
    rw [procCalls, hbuff]
    exact ih h

/-- Bytes that leave the clock alone may be taken first. -/
theorem procGps_append {g g' : Receiver} : ∀ {xs ys : List (UInt8 × Env)},
    procGps g xs = .ok (g', []) → procGps g (xs ++ ys) = procGps g' ys := by
  intro xs
  induction xs generalizing g with
  | nil =>
    intro ys h
    rw [(Prod.mk.inj (Except.ok.inj h)).1, List.nil_append]
  | cons i xs ih =>
    intro ys h
    obtain ⟨b, x⟩ := i
    obtain ⟨⟨g₁, c₁⟩, h₁, h⟩ := bind_eq_ok.mp h
    obtain ⟨⟨g₂, c₂⟩, h₂, h⟩ := bind_eq_ok.mp h
    obtain ⟨rfl, hc⟩ := Prod.mk.inj (pure_eq_ok.mp h)
    obtain ⟨rfl, rfl⟩ := List.append_eq_nil_iff.mp hc
    rw [List.cons_append, procGps, h₁]
    simp only [bind, Except.bind]
    rw [ih h₂]
    cases procGps g₂ ys <;> rfl

/-- The state in which the text `t` was collected over the buffer `b`. -/
def Receiver.collected (g : Receiver) (t : List UInt8) (h : t.length < 256) : Receiver :=
  { g with sbuff := g.sbuff.load t h, sIndex := t.length }

theorem load_put {b : Sbuff} {t : List UInt8} {v : UInt8} (h : t.length < 256)
    (h' : t.length + 1 < 256) :
    (b.load t h).put t.length v h' = b.load (t ++ [v]) (lt_of_eq_of_lt List.length_append h') := by
  apply Sbuff.ext
  have hcat := load_concat (m := b.mem) v t 0
  rw [Nat.zero_add] at hcat
  exact hcat

/-- Data bytes behind a text. -/
theorem procGps_data (x : Env) : ∀ {body t : List UInt8} {g : Receiver},
    1 ≤ t.length → (h : t.length + body.length < 256) →
    (∀ b ∈ body, b ≠ byte '$' ∧ b ≠ 13) →
    procGps (g.collected t (by omega)) (body.map (·, x)) =
      .ok (g.collected (t ++ body) (by simp; omega), [])
  | [], t, g, _, _, _ => by simp [procGps]
  | b :: body, t, g, ht, h, hb => by
      rw [List.length_cons] at h
      obtain ⟨hdollar, hcr⟩ := hb b List.mem_cons_self
      have hbyte : gpsByte (g.collected t (by omega)) x b =
          .ok (g.collected (t ++ [b]) (by simp; omega), []) := by
        rw [gpsByte_data (by simp [Receiver.collected]; omega)
          (by simp [Receiver.collected]; omega) hdollar hcr]
        simp only [Receiver.collected, Int.toNat_natCast, load_put, List.length_append,
          List.length_singleton, Int.natCast_add, Int.natCast_one]
      have hrest := procGps_data x (t := t ++ [b]) (g := g) (by simp)
        (by simp; omega) (fun c hc => hb c (List.mem_cons_of_mem _ hc))
      rw [List.map_cons, procGps, hbyte]
      simp only [bind, Except.bind]
      rw [hrest]
      simp [pure, Except.pure]

/-- A dollar sign and the bytes behind it. -/
theorem procGps_text (g : Receiver) (x : Env) {body : List UInt8} (h : body.length + 1 < 256)
    (hb : ∀ b ∈ body, b ≠ byte '$' ∧ b ≠ 13) :
    procGps g ((byte '$' :: body).map (·, x)) = .ok (g.collected (byte '$' :: body) h, []) := by
  have hput : g.sbuff.put 0 (byte '$') (by decide) = g.sbuff.load [byte '$'] (by decide) := by
    apply Sbuff.ext
    simp only [Sbuff.put, Sbuff.load, Schemes.load, Schemes.nulAt]
    rw [Function.update_comm (by omega)]
  have hfirst : procGps g [(byte '$', x)] = .ok (g.collected [byte '$'] (by decide), []) := by
    rw [procGps, gpsByte_dollar, hput]
    rfl
  rw [List.map_cons, ← List.singleton_append, procGps_append hfirst]
  exact procGps_data x (t := [byte '$']) (Nat.le_refl 1) (by simp; omega) hb

/-- CORRECT: for every stream, however it is cut into calls of `proc_gps`, the invariant holds after
    every byte and no write leaves `sbuff` exactly if no byte but a dollar sign or a carriage return
    finds the buffer full; and the calls end where the bytes lead to. -/
theorem reassembled_iff_hasRoom (calls : List (List (UInt8 × Env))) :
    (Stays heardStep .overflow Reassembled ⟨Receiver.boot, []⟩ calls.flatten ↔
      Meets heardStep HasRoom ⟨Receiver.boot, []⟩ calls.flatten) ∧
    ∀ t, run heardStep ⟨Receiver.boot, []⟩ calls.flatten = .ok t →
      procCalls Receiver.boot calls = .ok t.rx :=
  ⟨stays_iff_meets reassembled_step (Or.inl rfl), fun _ ht => procCalls_of_run ht⟩

/-- A clock that was never set. -/
def benchEnv : Env := ⟨0, 0, 0⟩

/-- 254 letters. -/
def fullBody : List UInt8 := List.replicate 254 (byte 'A')

/-- A dollar sign and 255 bytes behind it: the NUL of the last one is written at index 256. -/
theorem reassembly_overflows : ¬ ∀ calls : List (List (UInt8 × Env)),
    procCalls Receiver.boot calls ≠ .error .overflow := by
  intro h
  have hcount : fullBody.length = 254 := List.length_replicate
  have hlen : fullBody.length + 1 < 256 := by omega
  have hplain : ∀ b ∈ fullBody, b ≠ byte '$' ∧ b ≠ 13 := by
    intro b hb
    rw [List.eq_of_mem_replicate hb]
    decide
  have hfull : (Receiver.boot.collected (byte '$' :: fullBody) hlen).sIndex = 255 := by
    change ((byte '$' :: fullBody).length : ℤ) = 255
    rw [List.length_cons, hcount]
    rfl
  refine h [(byte '$' :: fullBody).map (·, benchEnv), [(byte 'A', benchEnv)]] ?_
  rw [procCalls, procGps_text Receiver.boot benchEnv hlen hplain]
  simp only [bind, Except.bind]
  rw [procCalls, procGps, gpsByte_full hfull (by decide) (by decide)]
  rfl

end AcqBoard.Gps
