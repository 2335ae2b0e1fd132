import AcqBoard.App.Atomic

/-! The same interleavings, statement by statement.

        DeliverData_s:  test s_ucIsReady; s_uiFlag++; s_puiAddr; branch; fwrite or send; send;
                        s_ucIsReady or s_ulTotalLen
        MesgThread:     s_ucIsReady; s_uiFlag; s_ulTotalLen; data file

    Nothing locks these variables, and the `send`s of a block may wait for the PC. `MesgThread` may set
    its flags behind the `send`s of a block and in front of its `s_ulTotalLen += BRAM_SIZE`: no order
    of the two as wholes ends like that. So a start interrupt must not set its first flag inside a
    block, and no block may begin before the last one is set. A command between two of the flags does
    no harm. A command handler and the data file of `MesgThread` are one step each, and the buffers of
    a block stay as its ready test found them. -/

namespace AcqBoard.App
open Schemes Csr

/-! ### The statements -/

/-- The branches of `DeliverData_s`: up to `PACKAGE_SIZE`, up to `BRAM_SIZE`, more. -/
inductive Branch where
  | package | bram | full
  deriving DecidableEq

def branchOf (len : UInt64) : Branch :=
  if len ≤ packageSize then .package else if len ≤ bramSize then .bram else .full

/-- The statement of `DeliverData_s` that comes next. `a` says that `s_puiAddr` is `s_puiAddr_A`. -/
inductive Body where
  | count
  | address
  | branch (a : Bool)
  | emit (a : Bool) (k : Branch)
  | sendRest (a : Bool) (k : Branch)
  | last (k : Branch)
  deriving DecidableEq

/-- The buffer behind `s_puiAddr`. -/
def Bram.addr (m : Bram) (a : Bool) : Window := if a then m.a else m.b

/-- One statement of the body of `DeliverData_s`, and the one behind it. -/
def bodyStep (m : Bram) (b : Board) : Body → Except Fault (Board × Option Body × List Io)
  | .count => pure ({ b with uiFlag := b.uiFlag + 1 }, some .address, [])
  | .address => pure (b, some (.branch (decide (b.uiFlag % 2 = 1))), [])
  | .branch a => pure (b, some (.emit a (branchOf (b.ulSampleLength - b.ulTotalLen))), [])
  | .emit a k =>
    let len := if k = .full then bramSize else b.ulSampleLength - b.ulTotalLen
    if b.uiSavePC = 0 then do
      let c ← b.fwrite (window (m.addr a) 0 len.toNat)
      pure (c, some (.last k), [.fwrite (window (m.addr a) 0 len.toNat)])
    else if k = .package then pure (b, some (.last k), [.send (window (m.addr a) 0 len.toNat)])
    else pure (b, some (.sendRest a k), [.send (window (m.addr a) 0 packageSize.toNat)])
  | .sendRest a k =>
    let len := if k = .full then packageSize else b.ulSampleLength - b.ulTotalLen - packageSize
    pure (b, some (.last k), [.send (window (m.addr a) packageSize.toNat len.toNat)])
  | .last k =>
    if k = .full then pure ({ b with ulTotalLen := b.ulTotalLen + bramSize }, none, [])
    else pure ({ b with ucIsReady := false }, none, [])

/-- Where the main loop stands, with the body of `DeliverData_s` taken apart. -/
inductive MainAt where
  | app | check | waiting | seen | got
  | body (next : Body)
  deriving DecidableEq

/-- Where `MesgThread` stands, with its flags taken apart: `flag` in front of `s_uiFlag = 0`, `total`
    in front of `s_ulTotalLen = 0`. -/
inductive MesgAt where
  | waiting | seen | got | flag | total | opening
  deriving DecidableEq

structure Threads where
  board : Board
  dataHappend : Bool
  startHappend : Bool
  main : MainAt
  mesg : MesgAt
  bram : Bram   -- the buffers of the last block

inductive Stmt where
  | dataIrq
  | startIrq
  | app (cmd : Option Command)
  | check
  | dataSeen
  | dataClear
  | test (m : Bram)
  | deliver
  | mesgSeen
  | mesgClear
  | mesgReady
  | mesgFlag
  | mesgTotal
  | mesgFile (uiSeconds : UInt32) (fopenOk : Bool)

/-- Both drivers open, nothing raised yet. -/
def Threads.boot (b : Board) : Threads := ⟨b, false, false, .app, .waiting, zeroBram⟩

def stmtStep (f : Threads) : Stmt → Except (Stuck Fault) (Threads × List Effect)
  | .dataIrq => .ok ({ f with dataHappend := true }, [])
  | .startIrq => .ok ({ f with startHappend := true }, [])
  | .app cmd => enabled (f.main = .app) do
    let b ← orFault (runCommand f.board cmd)
    pure ({ f with board := b, main := .check }, [])
  | .check => enabled (f.main = .check) <|
    pure ({ f with main := if f.board.ucIsReady then .waiting else .app }, [])
  | .dataSeen => enabled (f.main = .waiting ∧ f.dataHappend = true) <|
    pure ({ f with main := .seen }, [])
  | .dataClear => enabled (f.main = .seen) <|
    pure ({ f with dataHappend := false, main := .got }, [])
  | .test m => enabled (f.main = .got) <|
    pure ({ f with bram := m, main := if f.board.ucIsReady then .body .count else .app }, [])
  | .deliver => match f.main with
    | .body pc => do
      let r ← orFault (bodyStep f.bram f.board pc)
      pure ({ f with board := r.1, main := r.2.1.elim .app .body }, r.2.2.map .io)
    | _ => .error .disabled
  | .mesgSeen => enabled (f.mesg = .waiting ∧ f.startHappend = true) <|
    pure ({ f with mesg := .seen }, [])
  | .mesgClear => enabled (f.mesg = .seen) <|
    pure ({ f with startHappend := false, mesg := .got }, [])
  | .mesgReady => enabled (f.mesg = .got) <|
    pure ({ f with board := { f.board with ucIsReady := true }, mesg := .flag }, [])
  | .mesgFlag => enabled (f.mesg = .flag) <|
    pure ({ f with board := { f.board with uiFlag := 0 }, mesg := .total }, [])
  | .mesgTotal => enabled (f.mesg = .total) <|
    pure ({ f with board := { f.board with ulTotalLen := 0 }, mesg := .opening }, [])
  | .mesgFile uiSeconds fopenOk => enabled (f.mesg = .opening) do
    let b ← orFault (mesgFile f.board uiSeconds fopenOk)
    pure ({ f with board := b, mesg := .waiting }, opensOf f.board uiSeconds)

/-- What a statement is for each label. -/
def StmtMoved (f g : Threads) (out : List Effect) : Stmt → Prop
  | .dataIrq => g = { f with dataHappend := true } ∧ out = []
  | .startIrq => g = { f with startHappend := true } ∧ out = []
  | .app cmd => f.main = .app ∧ out = [] ∧
      ∃ b, runCommand f.board cmd = .ok b ∧ g = { f with board := b, main := .check }
  | .check => f.main = .check ∧ out = [] ∧
      g = { f with main := if f.board.ucIsReady then .waiting else .app }
  | .dataSeen => f.main = .waiting ∧ f.dataHappend = true ∧ out = [] ∧ g = { f with main := .seen }
  | .dataClear => f.main = .seen ∧ out = [] ∧ g = { f with dataHappend := false, main := .got }
  | .test m => f.main = .got ∧ out = [] ∧
      g = { f with bram := m, main := if f.board.ucIsReady then .body .count else .app }
  | .deliver => ∃ pc b next io, f.main = .body pc ∧ bodyStep f.bram f.board pc = .ok (b, next, io) ∧
      out = io.map .io ∧ g = { f with board := b, main := next.elim .app .body }
  | .mesgSeen => f.mesg = .waiting ∧ f.startHappend = true ∧ out = [] ∧ g = { f with mesg := .seen }
  | .mesgClear => f.mesg = .seen ∧ out = [] ∧ g = { f with startHappend := false, mesg := .got }
  | .mesgReady => f.mesg = .got ∧ out = [] ∧
      g = { f with board := { f.board with ucIsReady := true }, mesg := .flag }
  | .mesgFlag => f.mesg = .flag ∧ out = [] ∧
      g = { f with board := { f.board with uiFlag := 0 }, mesg := .total }
  | .mesgTotal => f.mesg = .total ∧ out = [] ∧
      g = { f with board := { f.board with ulTotalLen := 0 }, mesg := .opening }
  | .mesgFile uiSeconds fopenOk => f.mesg = .opening ∧ out = opensOf f.board uiSeconds ∧
      ∃ b, mesgFile f.board uiSeconds fopenOk = .ok b ∧ g = { f with board := b, mesg := .waiting }

theorem stmtStep_ok {f g : Threads} {l : Stmt} {out : List Effect}
    (h : stmtStep f l = .ok (g, out)) : StmtMoved f g out l := by
  cases l with
  | dataIrq | startIrq =>
    obtain ⟨rfl, rfl⟩ := Prod.mk.inj (Except.ok.inj h)
    exact ⟨rfl, rfl⟩
  | app cmd =>
    obtain ⟨hpc, h⟩ := enabled_eq_ok.mp h
    obtain ⟨b, hb, h⟩ := bind_eq_ok.mp h
    obtain ⟨rfl, rfl⟩ := Prod.mk.inj (pure_eq_ok.mp h)
    exact ⟨hpc, rfl, b, orFault_eq_ok.mp hb, rfl⟩
  | check | dataClear | test m | mesgClear | mesgReady | mesgFlag | mesgTotal =>
    obtain ⟨hpc, h⟩ := enabled_eq_ok.mp h
    obtain ⟨rfl, rfl⟩ := Prod.mk.inj (pure_eq_ok.mp h)
    exact ⟨hpc, rfl, rfl⟩
  | dataSeen | mesgSeen =>
    obtain ⟨⟨hpc, hirq⟩, h⟩ := enabled_eq_ok.mp h
    obtain ⟨rfl, rfl⟩ := Prod.mk.inj (pure_eq_ok.mp h)
    exact ⟨hpc, hirq, rfl, rfl⟩
  | deliver =>
    rw [stmtStep] at h
    split at h
    · rename_i pc hpc
      obtain ⟨⟨b, next, io⟩, hb, h⟩ := bind_eq_ok.mp h
      obtain ⟨rfl, rfl⟩ := Prod.mk.inj (pure_eq_ok.mp h)
      exact ⟨pc, b, next, io, hpc, orFault_eq_ok.mp hb, rfl, rfl⟩
    · cases h
  | mesgFile uiSeconds fopenOk =>
    obtain ⟨hpc, h⟩ := enabled_eq_ok.mp h
    obtain ⟨b, hb, h⟩ := bind_eq_ok.mp h
    obtain ⟨rfl, rfl⟩ := Prod.mk.inj (pure_eq_ok.mp h)
    exact ⟨hpc, rfl, b, orFault_eq_ok.mp hb, rfl⟩

/-- Which code of a statement can fault. -/
theorem stmtStep_fault {f : Threads} {l : Stmt} {e : Fault}
    (h : stmtStep f l = .error (.fault e)) :
    (∃ cmd, l = .app cmd ∧ f.main = .app ∧ runCommand f.board cmd = .error e) ∨
    (∃ pc, l = .deliver ∧ f.main = .body pc ∧ bodyStep f.bram f.board pc = .error e) ∨
    (∃ uiSeconds fopenOk, l = .mesgFile uiSeconds fopenOk ∧ f.mesg = .opening ∧
      mesgFile f.board uiSeconds fopenOk = .error e) := by
  cases l with
  | dataIrq | startIrq => cases h
  | app cmd =>
    obtain ⟨hpc, h⟩ := enabled_eq_fault.mp h
    rcases bind_eq_error.mp h with h | ⟨c, -, h⟩
    · exact Or.inl ⟨cmd, rfl, hpc, orFault_eq_fault.mp h⟩
    · cases h
  | check | dataSeen | dataClear | test m | mesgSeen | mesgClear | mesgReady | mesgFlag | mesgTotal =>
    cases (enabled_eq_fault.mp h).2
  | deliver =>
    rw [stmtStep] at h
    split at h
    · rename_i pc hpc
      rcases bind_eq_error.mp h with h | ⟨c, -, h⟩
      · exact Or.inr (Or.inl ⟨pc, rfl, hpc, orFault_eq_fault.mp h⟩)
      · cases h
    · cases h
  | mesgFile uiSeconds fopenOk =>
    obtain ⟨hpc, h⟩ := enabled_eq_fault.mp h
    rcases bind_eq_error.mp h with h | ⟨c, -, h⟩
    · exact Or.inr (Or.inr ⟨uiSeconds, fopenOk, rfl, hpc, orFault_eq_fault.mp h⟩)
    · cases h

/-! ### A block, statement by statement -/

/-- `s_uiFlag++`. -/
def Board.counted (b : Board) : Board := { b with uiFlag := b.uiFlag + 1 }

/-- The parity that chooses the buffer of the next block. -/
def Board.odd (b : Board) : Bool := decide ((b.uiFlag + 1) % 2 = 1)

/-- How far a block that was begun on the board `b` has come, and what it has put out. -/
inductive Reached (m : Bram) (b : Board) : Body → Board → List Io → Prop
  | count : Reached m b .count b []
  | address : Reached m b .address b.counted []
  | branch : Reached m b (.branch b.odd) b.counted []
  | emit : Reached m b (.emit b.odd (branchOf b.remaining)) b.counted []
  | sendRest (hpc : b.uiSavePC ≠ 0) (hk : branchOf b.remaining ≠ .package) :
    Reached m b (.sendRest b.odd (branchOf b.remaining)) b.counted
      [.send (window (b.blockAddr m) 0 packageSize.toNat)]
  | last {c : Board} {io : List Io}
    (h : emitBlock b.counted (b.blockAddr m) b.blockLen (sendsOf b.blockLen) = .ok (c, io)) :
    Reached m b (.last (branchOf b.remaining)) c io

variable {m : Bram} {b c : Board} {pc : Body} {io : List Io}

theorem addr_odd (b : Board) (m : Bram) : m.addr b.odd = b.blockAddr m := by
  simp only [Bram.addr, Board.odd, Board.blockAddr, decide_eq_true_eq]

theorem branchOf_eq_full {len : UInt64} : branchOf len = .full ↔ bramSize < len := by
  have hle : packageSize.toNat ≤ bramSize.toNat := by decide
  unfold branchOf
  split_ifs with h₁ h₂
  · simp only [UInt64.not_lt, false_iff]
    rw [UInt64.le_iff_toNat_le] at h₁ ⊢
    omega
  · simpa using h₂
  · simpa using h₂

theorem branchOf_eq_package {len : UInt64} : branchOf len = .package ↔ len ≤ packageSize := by
  unfold branchOf
  split_ifs with h₁ h₂ <;> simp [h₁]

/-- The length that the branch of a block is written with. -/
theorem blockLen_branch (b : Board) :
    (if branchOf b.remaining = .full then bramSize else b.remaining) = b.blockLen := by
  unfold Board.blockLen
  by_cases h : bramSize < b.remaining
  · rw [if_pos (branchOf_eq_full.mpr h), if_neg (UInt64.not_le.mpr h)]
  · rw [if_neg fun hf => h (branchOf_eq_full.mp hf), if_pos (UInt64.not_lt.mp h)]

/-- A block of one piece. -/
theorem sendsOf_package (h : branchOf b.remaining = .package) :
    sendsOf b.blockLen = [(0, b.blockLen)] := by
  rw [← blockLen_branch, if_neg (by rw [h]; simp), sendsOf, if_pos (branchOf_eq_package.mp h)]

/-- A block of two pieces, the second one as long as its branch says. -/
theorem sendsOf_two (h : branchOf b.remaining ≠ .package) :
    sendsOf b.blockLen = [(0, packageSize), (packageSize,
      if branchOf b.remaining = .full then packageSize else b.remaining - packageSize)] := by
  have hp : ¬ b.remaining ≤ packageSize := fun hle => h (branchOf_eq_package.mpr hle)
  rw [← blockLen_branch]
  by_cases hf : branchOf b.remaining = .full
  · simp only [if_pos hf]
    rfl
  · simp only [if_neg hf]
    rw [sendsOf, if_neg hp]

/-- The last statement of a block, as the two branches of `DeliverData_s` have it. -/
theorem last_eq (hr : b.ucIsReady = true)
    (h : emitBlock b.counted (b.blockAddr m) b.blockLen (sendsOf b.blockLen) = .ok (c, io)) :
    (if branchOf b.remaining = .full then { c with ulTotalLen := c.ulTotalLen + bramSize }
      else { c with ucIsReady := false }) =
    { c with
      ucIsReady := decide (bramSize < b.remaining) && c.ucIsReady
      ulTotalLen := if b.remaining ≤ bramSize then c.ulTotalLen else c.ulTotalLen + bramSize } := by
  have hready : c.ucIsReady = true := by
    rcases emitBlock_ok h with ⟨-, -, name, -, rfl⟩ | ⟨-, rfl, -⟩ <;> exact hr
  by_cases hf : bramSize < b.remaining
  · rw [if_pos (branchOf_eq_full.mpr hf), if_neg (UInt64.not_le.mpr hf), decide_eq_true hf, hready]
    rw [Bool.and_self, ← hready]
  · rw [if_neg fun h => hf (branchOf_eq_full.mp h), if_pos (UInt64.not_lt.mp hf),
      decide_eq_false hf, Bool.false_and]

/-- What goes out first, by the save position and the branch. -/
theorem bodyStep_emit (m : Bram) (b : Board) :
    bodyStep m b.counted (.emit b.odd (branchOf b.remaining)) =
      if b.uiSavePC = 0 then do
        let c ← b.counted.fwrite (window (b.blockAddr m) 0 b.blockLen.toNat)
        pure (c, some (.last (branchOf b.remaining)),
          [.fwrite (window (b.blockAddr m) 0 b.blockLen.toNat)])
      else if branchOf b.remaining = .package then
        pure (b.counted, some (.last (branchOf b.remaining)),
          [.send (window (b.blockAddr m) 0 b.blockLen.toNat)])
      else pure (b.counted, some (.sendRest b.odd (branchOf b.remaining)),
        [.send (window (b.blockAddr m) 0 packageSize.toNat)]) := by
  rw [← blockLen_branch, ← addr_odd]
  rfl

/-- STEP (a block): each statement takes a block further, the last one ends it as the whole
    `DeliverData_s` does, and where one faults, the whole faults. -/
theorem Reached.step (hr : b.ucIsReady = true) (h : Reached m b pc c io) :
    match bodyStep m c pc with
    | .ok (d, some pc', io') => Reached m b pc' d (io ++ io')
    | .ok (d, none, io') => deliverDataS b true m = .ok (d, io ++ io')
    | .error e => deliverDataS b true m = .error e := by
  have hcount : b.counted.uiSavePC = b.uiSavePC := rfl
  cases h with
  | count => exact .address
  | address => exact .branch
  | branch => exact .emit
  | emit =>
    rw [bodyStep_emit]
    by_cases hpc : b.uiSavePC = 0
    · rw [if_pos hpc]
      cases hw : b.counted.fwrite (window (b.blockAddr m) 0 b.blockLen.toNat) with
      | error e =>
        change deliverDataS b true m = .error e
        rw [deliverDataS_eq hr, emitBlock, if_pos hpc]
        change (b.counted.fwrite _ >>= _) >>= _ = _
        rw [hw]
        rfl
      | ok d =>
        refine .last ?_
        rw [emitBlock, hcount, if_pos hpc, hw]
        rfl
    · rw [if_neg hpc]
      by_cases hk : branchOf b.remaining = .package
      · rw [if_pos hk]
        refine .last ?_
        rw [emitBlock, hcount, if_neg hpc, sendsOf_package hk]
        rfl
      · rw [if_neg hk]
        exact .sendRest hpc hk
  | sendRest hpc hk =>
    refine .last ?_
    rw [emitBlock, hcount, if_neg hpc, sendsOf_two hk]
    change _ = Except.ok (_, [_, Io.send (window (m.addr b.odd) _ _)])
    rw [addr_odd]
    rfl
  | last h =>
    have hend : deliverDataS b true m = .ok
        (if branchOf b.remaining = .full then { c with ulTotalLen := c.ulTotalLen + bramSize }
          else { c with ucIsReady := false }, io) := by
      rw [last_eq hr h, deliverDataS_eq hr]
      change emitBlock b.counted _ _ _ >>= _ = _
      rw [h]
      rfl
    by_cases hf : branchOf b.remaining = .full
    · rw [if_pos hf] at hend
      rw [bodyStep, if_pos hf]
      change deliverDataS b true m = .ok (_, io ++ [])
      rw [List.append_nil]
      exact hend
    · rw [if_neg hf] at hend
      rw [bodyStep, if_neg hf]
      change deliverDataS b true m = .ok (_, io ++ [])
      rw [List.append_nil]
      exact hend

/-- A block does not choose where it goes. -/
theorem Reached.uiSavePC (h : Reached m b pc c io) : c.uiSavePC = b.uiSavePC := by
  cases h with
  | count | address | branch | emit | sendRest => rfl
  | last h => rcases emitBlock_ok h with ⟨-, -, name, -, rfl⟩ | ⟨-, rfl, -⟩ <;> rfl

/-! ### Statements against whole operations -/

/-- Where `MesgThread` stands among the whole operations: its flags take effect with the first one. -/
def MesgAt.whole : MesgAt → MesgPc
  | .waiting => .waiting
  | .seen => .seen
  | .got => .got
  | .flag | .total | .opening => .opening

/-- Where the main loop stands among them: a block takes effect with its last statement. -/
def MainAt.whole : MainAt → MainPc
  | .app => .app
  | .check => .check
  | .waiting => .waiting
  | .seen => .seen
  | .got | .body _ => .got

/-- A board with the flags set that `MesgThread` still has to set. -/
def MesgAt.settled : MesgAt → Board → Board
  | .flag, b => { b with uiFlag := 0, ulTotalLen := 0 }
  | .total, b => { b with ulTotalLen := 0 }
  | _, b => b

def MainAt.inBlock : MainAt → Bool
  | .body _ => true
  | _ => false

/-- `MesgThread` is between its first flag and its last. -/
def MesgAt.midFlags (p : MesgAt) : Prop := p = .flag ∨ p = .total

instance (p : MesgAt) : Decidable p.midFlags := inferInstanceAs (Decidable (_ ∨ _))

/-- The whole operation that takes effect with a statement. A block takes effect with its last
    statement, or with the one that faults. -/
def inSys (f : Threads) : Stmt → Option Label
  | .dataIrq => some .dataIrq
  | .startIrq => some .startIrq
  | .app cmd => some (.app cmd)
  | .check => some .check
  | .dataSeen => some .dataSeen
  | .dataClear => some .dataClear
  | .test m => if f.board.ucIsReady then none else some (.deliver m)
  | .deliver => match f.main with
    | .body pc => match bodyStep f.bram f.board pc with
      | .ok (_, some _, _) => none
      | _ => some (.deliver f.bram)
    | _ => none
  | .mesgSeen => some .mesgSeen
  | .mesgClear => some .mesgClear
  | .mesgReady => some .mesgFlags
  | .mesgFlag | .mesgTotal => none
  | .mesgFile uiSeconds fopenOk => some (.mesgFile uiSeconds fopenOk)

/-- The threads keep apart: no start interrupt sets its first flag inside a block, no block begins
    before its last flag, and from its first flag to its data file the main loop leaves the save
    position alone and, in SD mode, begins no block and handles no `AcqStop`. -/
def Apart (f : Threads) : Stmt → Prop
  | .app (some (.acqStart p _ _)) =>
    f.mesg.whole = .opening → (p.savePosition = 0 ↔ f.board.uiSavePC = 0)
  | .app (some .acqStop) => f.mesg.whole = .opening → f.board.uiSavePC ≠ 0
  | .test _ => ¬ f.mesg.midFlags ∧ (f.mesg.whole = .opening → f.board.uiSavePC ≠ 0)
  | .mesgReady => f.main.inBlock = false
  | _ => True

instance (f : Threads) : (l : Stmt) → Decidable (Apart f l)
  | .app (some (.acqStart ..)) => inferInstanceAs (Decidable (_ → (_ ↔ _)))
  | .app (some .acqStop) => inferInstanceAs (Decidable (_ → _))
  | .test _ => inferInstanceAs (Decidable (_ ∧ _))
  | .mesgReady => inferInstanceAs (Decidable (_ = _))
  | .app none | .dataIrq | .startIrq | .check | .dataSeen | .dataClear | .deliver | .mesgSeen
  | .mesgClear | .mesgFlag | .mesgTotal | .mesgFile .. => isTrue trivial

/-- The board behind a history of whole operations, and what is put out ahead of it. Inside a block
    it is the board the block was begun on, else the one with all its flags set. -/
def Behind (f : Threads) (b : Board) (held : List Effect) : Prop :=
  match f.main with
  | .body pc => b.ucIsReady = true ∧ ¬ f.mesg.midFlags ∧
      (f.mesg.whole = .opening → b.uiSavePC ≠ 0) ∧
      ∃ io, Reached f.bram b pc f.board io ∧ held = io.map .io
  | _ => b = f.mesg.settled f.board ∧ held = []

/-- The threads stand where the whole operations do. -/
structure Stands (f : Threads) (s : Sys) (held : List Effect) : Prop where
  dataHappend : s.dataHappend = f.dataHappend
  startHappend : s.startHappend = f.startHappend
  main : s.main = f.main.whole
  mesg : s.mesg = f.mesg.whole
  board : Behind f s.board held

theorem stands_boot (board : Board) : Stands (Threads.boot board) (Sys.boot board) [] :=
  ⟨rfl, rfl, rfl, rfl, rfl, rfl⟩

variable {f g : Threads} {s : Sys} {held out : List Effect}

theorem MainAt.block_or (p : MainAt) : (∃ pc, p = .body pc) ∨ p.inBlock = false := by
  cases p with
  | body pc => exact Or.inl ⟨pc, rfl⟩
  | app | check | waiting | seen | got => exact Or.inr rfl

theorem behind_body (h : f.main = .body pc) : Behind f b held ↔ b.ucIsReady = true ∧
    ¬ f.mesg.midFlags ∧ (f.mesg.whole = .opening → b.uiSavePC ≠ 0) ∧
    ∃ io, Reached f.bram b pc f.board io ∧ held = io.map .io := by
  rw [Behind, h]

theorem behind_else (h : f.main.inBlock = false) :
    Behind f b held ↔ b = f.mesg.settled f.board ∧ held = [] := by
  unfold Behind
  split
  · rename_i pc hmain
    rw [hmain] at h
    cases h
  · rfl

theorem settled_of_not {p : MesgAt} (h : ¬ p.midFlags) (b : Board) : p.settled b = b := by
  cases p with
  | flag => exact absurd (Or.inl rfl) h
  | total => exact absurd (Or.inr rfl) h
  | waiting | seen | got | opening => rfl

theorem uiSavePC_settled (p : MesgAt) (b : Board) : (p.settled b).uiSavePC = b.uiSavePC := by
  cases p <;> rfl

theorem ucIsReady_settled (p : MesgAt) (b : Board) : (p.settled b).ucIsReady = b.ucIsReady := by
  cases p <;> rfl

theorem Behind.uiSavePC (h : Behind f b held) : b.uiSavePC = f.board.uiSavePC := by
  rcases f.main.block_or with ⟨pc, hmain⟩ | hblock
  · obtain ⟨-, -, -, io, hreached, -⟩ := (behind_body hmain).mp h
    exact hreached.uiSavePC.symm
  · rw [((behind_else hblock).mp h).1, uiSavePC_settled]

theorem acqStop_settled (p : MesgAt) (b : Board) : acqStop (p.settled b) = p.settled (acqStop b) := by
  unfold acqStop acqStopLogged
  by_cases hpc : b.uiSavePC = 0
  · cases hfd : b.pSdHPFd <;> cases p <;>
      simp only [MesgAt.settled, hpc, hfd, if_true, Board.fclose]
  · cases p <;> simp only [MesgAt.settled, hpc, if_false]

theorem acqStart_settled (p : MesgAt) (b : Board) (prof : Profile) (uiSeconds : UInt32)
    (bitBuff : ℕ → UInt8) :
    acqStart (p.settled b) prof uiSeconds bitBuff =
      (acqStart b prof uiSeconds bitBuff).map p.settled := by
  unfold acqStart acqStartLogged configurationLogged
  cases p <;> simp only [MesgAt.settled, map_bind, bind_assoc] <;>
    refine bind_congr fun _ => bind_congr fun _ => bind_congr fun _ => bind_congr fun _ => ?_ <;>
    split <;> rfl

/-- A command neither reads nor keeps the flags that `MesgThread` still has to set. -/
theorem runCommand_settled (p : MesgAt) (b : Board) (cmd : Option Command) :
    runCommand (p.settled b) cmd = (runCommand b cmd).map p.settled := by
  cases cmd with
  | none => rfl
  | some c =>
    cases c with
    | acqStop => exact congrArg Except.ok (acqStop_settled p b)
    | acqStart prof uiSeconds bitBuff => exact acqStart_settled p b prof uiSeconds bitBuff

/-- Waiting for the next start interrupt `MesgThread` touches nothing. -/
theorem Behind.mesg {p : MesgAt} (h : Behind f b held) (hf : ¬ f.mesg.midFlags)
    (hp : p.whole ≠ .opening) : Behind { f with mesg := p } b held := by
  have hmid : ¬ p.midFlags := by
    rintro (rfl | rfl)
    · exact hp rfl
    · exact hp rfl
  rcases f.main.block_or with ⟨pc, hmain⟩ | hblock
  · obtain ⟨hr, -, -, hreached⟩ := (behind_body hmain).mp h
    exact (behind_body (by exact hmain)).mpr ⟨hr, hmid, fun ho => absurd ho hp, hreached⟩
  · obtain ⟨rfl, rfl⟩ := (behind_else hblock).mp h
    refine (behind_else (by exact hblock)).mpr ⟨?_, rfl⟩
    rw [settled_of_not hf]
    exact (settled_of_not hmid _).symm

/-- The statements that are no operation's last one leave the whole operations where they are. -/
theorem stands_silent {l : Stmt} (h : Stands f s held) (ha : Apart f l) (he : inSys f l = none)
    (hstep : stmtStep f l = .ok (g, out)) : Stands g s (held ++ out) := by
  have hm := stmtStep_ok hstep
  cases l with
  | dataIrq | startIrq | app | check | dataSeen | dataClear | mesgSeen | mesgClear | mesgReady
  | mesgFile => cases he
  | test m =>
    obtain ⟨hpc, rfl, rfl⟩ := hm
    cases hr : f.board.ucIsReady with
    | false =>
      rw [inSys, hr] at he
      cases he
    | true =>
      obtain ⟨hb, rfl⟩ := (behind_else (by rw [hpc]; rfl)).mp h.board
      rw [settled_of_not ha.1] at hb
      refine ⟨h.dataHappend, h.startHappend, by rw [h.main, hpc]; rfl, h.mesg, ?_⟩
      refine (behind_body (by exact rfl)).mpr ⟨by rw [hb, hr], ha.1, fun ho => ?_, [], ?_, rfl⟩
      · rw [hb]
        exact ha.2 ho
      · rw [hb]
        exact .count
  | deliver =>
    obtain ⟨pc, b, next, io, hpc, hb, rfl, rfl⟩ := hm
    obtain ⟨hr, hmid, hopen, io', hreached, rfl⟩ := (behind_body hpc).mp h.board
    have hnext := hreached.step hr
    rw [hb] at hnext
    cases next with
    | none =>
      simp only [inSys, hpc, hb] at he
      cases he
    | some pc' =>
      refine ⟨h.dataHappend, h.startHappend, by rw [h.main, hpc]; rfl, h.mesg, ?_⟩
      exact (behind_body (by exact rfl)).mpr
        ⟨hr, hmid, hopen, io' ++ io, hnext, List.map_append.symm⟩
  | mesgFlag | mesgTotal =>
    obtain ⟨hpc, rfl, rfl⟩ := hm
    have hblock : f.main.inBlock = false := by
      refine f.main.block_or.resolve_left fun ⟨pc, hmain⟩ => ?_
      exact ((behind_body hmain).mp h.board).2.1 (by simp [MesgAt.midFlags, hpc])
    obtain ⟨hb, rfl⟩ := (behind_else hblock).mp h.board
    refine ⟨h.dataHappend, h.startHappend, h.main, by rw [h.mesg, hpc]; rfl, ?_⟩
    refine (behind_else (by exact hblock)).mpr ⟨?_, rfl⟩
    rw [hb, hpc]
    rfl

/-- A command, which commutes with the flags that are still to be set. -/
theorem stands_app {cmd : Option Command} (h : Stands f s held)
    (hstep : stmtStep f (.app cmd) = .ok (g, out)) :
    ∃ t, sysStep s (.app cmd) = .ok (t, held ++ out) ∧ Stands g t [] := by
  obtain ⟨hpc, rfl, c, hc, rfl⟩ := stmtStep_ok hstep
  obtain ⟨hb, rfl⟩ := (behind_else (by rw [hpc]; rfl)).mp h.board
  have hrun : runCommand s.board cmd = .ok (f.mesg.settled c) := by
    rw [hb, runCommand_settled, hc]
    rfl
  refine ⟨{ s with board := f.mesg.settled c, main := .check }, enabled_eq_ok.mpr ⟨?_, ?_⟩,
    h.dataHappend, h.startHappend, rfl, h.mesg, (behind_else rfl).mpr ⟨rfl, rfl⟩⟩
  · rw [h.main, hpc]
    rfl
  · exact bind_eq_ok.mpr ⟨_, orFault_eq_ok.mpr hrun, rfl⟩

/-- A ready test that fails is a block that does nothing. -/
theorem stands_test {m : Bram} {k : Label} (h : Stands f s held) (he : inSys f (.test m) = some k)
    (hstep : stmtStep f (.test m) = .ok (g, out)) :
    ∃ t, sysStep s k = .ok (t, held ++ out) ∧ Stands g t [] := by
  obtain ⟨hpc, rfl, rfl⟩ := stmtStep_ok hstep
  obtain ⟨hb, rfl⟩ := (behind_else (by rw [hpc]; rfl)).mp h.board
  cases hr : f.board.ucIsReady with
  | true =>
    rw [inSys, hr] at he
    cases he
  | false =>
    rw [inSys, hr] at he
    obtain rfl := Option.some.inj he
    have hidle : deliverDataS s.board true m = .ok (s.board, []) :=
      deliverDataS_idle (by rw [hb, ucIsReady_settled, hr]; rfl) m
    refine ⟨{ s with main := .app }, enabled_eq_ok.mpr ⟨by rw [h.main, hpc]; rfl, ?_⟩,
      h.dataHappend, h.startHappend, rfl, h.mesg, (behind_else rfl).mpr ⟨hb, rfl⟩⟩
    exact bind_eq_ok.mpr ⟨_, orFault_eq_ok.mpr hidle, rfl⟩

/-- The statement with which a block ends. -/
theorem stands_deliver {k : Label} (h : Stands f s held) (he : inSys f .deliver = some k)
    (hstep : stmtStep f .deliver = .ok (g, out)) :
    ∃ t, sysStep s k = .ok (t, held ++ out) ∧ Stands g t [] := by
  obtain ⟨pc, b, next, io, hpc, hb, rfl, rfl⟩ := stmtStep_ok hstep
  obtain ⟨hr, hmid, -, io', hreached, rfl⟩ := (behind_body hpc).mp h.board
  have hnext := hreached.step hr
  rw [hb] at hnext
  cases next with
  | some pc' =>
    simp only [inSys, hpc, hb] at he
    cases he
  | none =>
    simp only [inSys, hpc, hb, Option.some.injEq] at he
    subst he
    refine ⟨{ s with board := b, main := .app }, enabled_eq_ok.mpr ⟨by rw [h.main, hpc]; rfl, ?_⟩, ?_⟩
    · refine bind_eq_ok.mpr ⟨_, orFault_eq_ok.mpr hnext, ?_⟩
      rw [List.map_append]
      rfl
    · refine ⟨h.dataHappend, h.startHappend, rfl, h.mesg, (behind_else rfl).mpr ⟨?_, rfl⟩⟩
      exact (settled_of_not hmid b).symm

/-- The data file of `MesgThread`. Inside a block there is none: the save position is PC. -/
theorem stands_mesgFile {uiSeconds : UInt32} {fopenOk : Bool} (h : Stands f s held)
    (hstep : stmtStep f (.mesgFile uiSeconds fopenOk) = .ok (g, out)) :
    ∃ t out' held', sysStep s (.mesgFile uiSeconds fopenOk) = .ok (t, out') ∧
      held ++ out = out' ++ held' ∧ Stands g t held' := by
  obtain ⟨hpc, rfl, c, hc, rfl⟩ := stmtStep_ok hstep
  have hmid : ¬ f.mesg.midFlags := by simp [MesgAt.midFlags, hpc]
  have hmesg : s.mesg = .opening := by rw [h.mesg, hpc]; rfl
  rcases f.main.block_or with ⟨pc, hmain⟩ | hblock
  · obtain ⟨-, -, hopen, -⟩ := (behind_body hmain).mp h.board
    have hsave : s.board.uiSavePC ≠ 0 := hopen (by rw [hpc]; rfl)
    have hsave' : f.board.uiSavePC ≠ 0 := h.board.uiSavePC ▸ hsave
    rw [mesgFile_pc hsave'] at hc
    obtain rfl := Except.ok.inj hc
    refine ⟨{ s with mesg := .waiting }, [], held, enabled_eq_ok.mpr ⟨hmesg, ?_⟩, ?_, ?_⟩
    · refine bind_eq_ok.mpr ⟨s.board, orFault_eq_ok.mpr (mesgFile_pc hsave), ?_⟩
      rw [opensOf, if_neg hsave]
      rfl
    · rw [opensOf, if_neg hsave', List.append_nil, List.nil_append]
    · exact ⟨h.dataHappend, h.startHappend, h.main, rfl, h.board.mesg hmid (by simp [MesgAt.whole])⟩
  · obtain ⟨hb, rfl⟩ := (behind_else hblock).mp h.board
    rw [settled_of_not hmid] at hb
    refine ⟨{ s with board := c, mesg := .waiting }, opensOf s.board uiSeconds, [],
      enabled_eq_ok.mpr ⟨hmesg, ?_⟩, ?_, ?_⟩
    · exact bind_eq_ok.mpr ⟨c, orFault_eq_ok.mpr (hb ▸ hc), rfl⟩
    · rw [hb, List.append_nil, List.nil_append]
    · exact ⟨h.dataHappend, h.startHappend, h.main, rfl, (behind_else (by exact hblock)).mpr ⟨rfl, rfl⟩⟩

/-- A statement with which a whole operation takes effect. -/
theorem stands_matched {l : Stmt} {k : Label} (h : Stands f s held) (ha : Apart f l)
    (he : inSys f l = some k) (hstep : stmtStep f l = .ok (g, out)) :
    ∃ t out' held', sysStep s k = .ok (t, out') ∧ held ++ out = out' ++ held' ∧
      Stands g t held' := by
  have hm := stmtStep_ok hstep
  cases l with
  | mesgFlag | mesgTotal => cases he
  | deliver =>
    obtain ⟨t, ht, hg⟩ := stands_deliver h he hstep
    exact ⟨t, held ++ out, [], ht, (List.append_nil _).symm, hg⟩
  | mesgFile uiSeconds fopenOk =>
    obtain rfl := Option.some.inj he
    exact stands_mesgFile h hstep
  | dataIrq =>
    obtain ⟨rfl, rfl⟩ := hm
    obtain rfl := Option.some.inj he
    exact ⟨{ s with dataHappend := true }, [], held, rfl, List.append_nil _,
      rfl, h.startHappend, h.main, h.mesg, h.board⟩
  | startIrq =>
    obtain ⟨rfl, rfl⟩ := hm
    obtain rfl := Option.some.inj he
    exact ⟨{ s with startHappend := true }, [], held, rfl, List.append_nil _,
      h.dataHappend, rfl, h.main, h.mesg, h.board⟩
  | app cmd =>
    obtain rfl := Option.some.inj he
    obtain ⟨t, ht, hg⟩ := stands_app h hstep
    exact ⟨t, held ++ out, [], ht, (List.append_nil _).symm, hg⟩
  | check =>
    obtain ⟨hpc, rfl, rfl⟩ := hm
    obtain rfl := Option.some.inj he
    obtain ⟨hb, rfl⟩ := (behind_else (by rw [hpc]; rfl)).mp h.board
    have hready : s.board.ucIsReady = f.board.ucIsReady := by rw [hb, ucIsReady_settled]
    refine ⟨{ s with main := if s.board.ucIsReady then .waiting else .app }, [], [],
      enabled_eq_ok.mpr ⟨by rw [h.main, hpc]; rfl, rfl⟩, rfl, h.dataHappend, h.startHappend, ?_,
      h.mesg, (behind_else ?_).mpr ⟨hb, rfl⟩⟩
    · dsimp only
      rw [hready]
      split <;> rfl
    · dsimp only
      split <;> rfl
  | dataSeen =>
    obtain ⟨hpc, hirq, rfl, rfl⟩ := hm
    obtain rfl := Option.some.inj he
    obtain ⟨hb, rfl⟩ := (behind_else (by rw [hpc]; rfl)).mp h.board
    exact ⟨{ s with main := .seen }, [], [],
      enabled_eq_ok.mpr ⟨⟨by rw [h.main, hpc]; rfl, by rw [h.dataHappend, hirq]⟩, rfl⟩, rfl,
      h.dataHappend, h.startHappend, rfl, h.mesg, (behind_else rfl).mpr ⟨hb, rfl⟩⟩
  | dataClear =>
    obtain ⟨hpc, rfl, rfl⟩ := hm
    obtain rfl := Option.some.inj he
    obtain ⟨hb, rfl⟩ := (behind_else (by rw [hpc]; rfl)).mp h.board
    exact ⟨{ s with dataHappend := false, main := .got }, [], [],
      enabled_eq_ok.mpr ⟨by rw [h.main, hpc]; rfl, rfl⟩, rfl,
      rfl, h.startHappend, rfl, h.mesg, (behind_else rfl).mpr ⟨hb, rfl⟩⟩
  | test m =>
    obtain ⟨t, ht, hg⟩ := stands_test h he hstep
    exact ⟨t, held ++ out, [], ht, (List.append_nil _).symm, hg⟩
  | mesgSeen =>
    obtain ⟨hpc, hirq, rfl, rfl⟩ := hm
    obtain rfl := Option.some.inj he
    have hmid : ¬ f.mesg.midFlags := by simp [MesgAt.midFlags, hpc]
    exact ⟨{ s with mesg := .seen }, [], held,
      enabled_eq_ok.mpr ⟨⟨by rw [h.mesg, hpc]; rfl, by rw [h.startHappend, hirq]⟩, rfl⟩,
      List.append_nil _, h.dataHappend, h.startHappend, h.main, rfl,
      h.board.mesg hmid (by simp [MesgAt.whole])⟩
  | mesgClear =>
    obtain ⟨hpc, rfl, rfl⟩ := hm
    obtain rfl := Option.some.inj he
    have hmid : ¬ f.mesg.midFlags := by simp [MesgAt.midFlags, hpc]
    exact ⟨{ s with startHappend := false, mesg := .got }, [], held,
      enabled_eq_ok.mpr ⟨by rw [h.mesg, hpc]; rfl, rfl⟩, List.append_nil _,
      h.dataHappend, rfl, h.main, rfl,
      Behind.mesg (f := { f with startHappend := false }) h.board hmid (by simp [MesgAt.whole])⟩
  | mesgReady =>
    obtain ⟨hpc, rfl, rfl⟩ := hm
    obtain rfl := Option.some.inj he
    obtain ⟨hb, rfl⟩ := (behind_else ha).mp h.board
    rw [hpc] at hb
    exact ⟨{ s with board := mesgFlags s.board, mesg := .opening }, [], [],
      enabled_eq_ok.mpr ⟨by rw [h.mesg, hpc]; rfl, rfl⟩, rfl,
      h.dataHappend, h.startHappend, h.main, rfl,
      (behind_else (by exact ha)).mpr ⟨by rw [hb]; rfl, rfl⟩⟩

theorem stands_fault {l : Stmt} {e : Fault} (h : Stands f s held)
    (hstep : stmtStep f l = .error (.fault e)) :
    ∃ k, inSys f l = some k ∧ sysStep s k = .error (.fault e) := by
  rcases stmtStep_fault hstep with ⟨cmd, rfl, hpc, he⟩ | ⟨pc, rfl, hpc, he⟩ |
    ⟨uiSeconds, fopenOk, rfl, hpc, he⟩
  · obtain ⟨hb, -⟩ := (behind_else (by rw [hpc]; rfl)).mp h.board
    refine ⟨_, rfl, enabled_eq_fault.mpr ⟨by rw [h.main, hpc]; rfl, bind_eq_error.mpr (Or.inl ?_)⟩⟩
    rw [orFault_eq_fault, hb, runCommand_settled, map_eq_error]
    exact he
  · obtain ⟨hr, -, -, io, hreached, -⟩ := (behind_body hpc).mp h.board
    have hnext := hreached.step hr
    rw [he] at hnext
    refine ⟨.deliver f.bram, by simp only [inSys, hpc, he], enabled_eq_fault.mpr
      ⟨by rw [h.main, hpc]; rfl, bind_eq_error.mpr (Or.inl (orFault_eq_fault.mpr hnext))⟩⟩
  · refine ⟨_, rfl, enabled_eq_fault.mpr ⟨by rw [h.mesg, hpc]; rfl, bind_eq_error.mpr (Or.inl ?_)⟩⟩
    have hsave : f.board.uiSavePC = 0 := by
      by_contra hsave
      rw [mesgFile_pc hsave] at he
      cases he
    have hblock : f.main.inBlock = false := by
      refine f.main.block_or.resolve_left fun ⟨pc, hmain⟩ => ?_
      refine ((behind_body hmain).mp h.board).2.2.1 (by rw [hpc]; rfl) ?_
      rw [h.board.uiSavePC, hsave]
    obtain ⟨hb, -⟩ := (behind_else hblock).mp h.board
    rw [orFault_eq_fault, hb, hpc]
    exact he

/-- STEP (statements): an interleaving of statements in which the threads keep apart is one of whole
    operations. -/
theorem reduces_stmtStep : Reduces stmtStep sysStep Stuck.fault inSys Stands Apart where
  silent h ha he hstep := stands_silent h ha he hstep
  matched h ha he hstep := stands_matched h ha he hstep
  fault h _ hstep := stands_fault h hstep

/-- Threads that keep apart leave `MesgThread` alone between the flags and the data file. -/
theorem leftAlone_of_apart {l : Stmt} {k : Label} (h : Stands f s held) (ha : Apart f l)
    (he : inSys f l = some k) : LeftAlone s k := by
  cases l with
  | mesgFlag | mesgTotal => cases he
  | dataIrq | startIrq | check | dataSeen | dataClear | mesgSeen | mesgClear | mesgReady
  | mesgFile =>
    obtain rfl := Option.some.inj he
    trivial
  | app cmd =>
    obtain rfl := Option.some.inj he
    cases cmd with
    | none => trivial
    | some c =>
      cases c with
      | acqStart p uiSeconds bitBuff =>
        intro ho
        rw [h.board.uiSavePC]
        exact ha (h.mesg ▸ ho)
      | acqStop =>
        intro ho
        rw [h.board.uiSavePC]
        exact ha (h.mesg ▸ ho)
  | test m =>
    rw [inSys] at he
    split at he
    · cases he
    · obtain rfl := Option.some.inj he
      intro ho
      rw [h.board.uiSavePC]
      exact ha.2 (h.mesg ▸ ho)
  | deliver =>
    rcases f.main.block_or with ⟨pc, hmain⟩ | hblock
    · obtain ⟨-, -, hopen, -⟩ := (behind_body hmain).mp h.board
      simp only [inSys, hmain] at he
      split at he
      · cases he
      · obtain rfl := Option.some.inj he
        exact fun ho => hopen (h.mesg ▸ ho)
    · rw [inSys] at he
      split at he
      · rename_i pc hmain
        rw [hmain] at hblock
        cases hblock
      · cases he

/-! ### The atomic history -/

/-- The atomic events of an interleaving of statements, in the order in which they take effect. -/
def history (board : Board) (ls : List Stmt) : List Event :=
  serial sysStep takesEffect (Sys.boot board) (serial stmtStep inSys (Threads.boot board) ls)

/-- CORRECT (atomicity): an interleaving of statements in which the threads keep apart is a history of
    atomic events, in the order in which they take effect. The same bytes go out and the same files
    are opened in the same order, up to what a block under way has put out; the board is the same but
    for that block, for the flags that `MesgThread` has still to set, and for the flags of a start
    interrupt that has no file yet; and where the program faults the history has the same fault. -/
theorem interleaved_atomic {board : Board} {ls : List Stmt}
    (hm : Meets (next stmtStep) Apart (Threads.boot board) ls) :
    (∀ f outs, trace stmtStep (Threads.boot board) ls = .ok (f, outs) →
      ∃ b outs' held, trace eventStep board (history board ls) = .ok (b, outs') ∧
        outs.flatten = outs'.flatten ++ held ∧
        (∀ pc, f.main = .body pc →
          ∃ io, Reached f.bram b pc f.board io ∧ held = io.map .io) ∧
        (f.main.inBlock = false → held = [] ∧ f.mesg.settled f.board =
          if f.mesg.whole = .opening ∧ f.board.uiSavePC = 0 then mesgFlags b else b)) ∧
    ∀ e, trace stmtStep (Threads.boot board) ls = .error (.fault e) →
      trace eventStep board (history board ls) = .error e := by
  have halone := reduces_stmtStep.meets leftAlone_of_apart (stands_boot board) hm
  have hboot : Follows (Sys.boot board) board ∧ ([] : List Effect) = [] := ⟨follows_boot board, rfl⟩
  constructor
  · intro f outs h
    obtain ⟨s, outs₁, held, hs, hflat₁, hstands⟩ :=
      reduces_stmtStep.trace_ok (stands_boot board) hm h
    obtain ⟨b, outs', held₁, hb, hflat, hfollows, rfl⟩ := reduces_sysStep.trace_ok hboot halone hs
    rw [List.nil_append] at hflat₁ hflat
    rw [List.append_nil] at hflat
    refine ⟨b, outs', held, hb, by rw [hflat₁, hflat], ?_, ?_⟩
    · intro pc hmain
      obtain ⟨-, -, hopen, hreached⟩ := (behind_body hmain).mp hstands.board
      have hboard := (follows_of_not fun ho => hopen (hstands.mesg ▸ ho.1) ho.2).mp hfollows
      rwa [hboard] at hreached
    · intro hblock
      obtain ⟨hboard, rfl⟩ := (behind_else hblock).mp hstands.board
      refine ⟨rfl, ?_⟩
      rw [← hboard, hfollows]
      simp only [Opening, hstands.mesg, hstands.board.uiSavePC]
  · intro e h
    exact reduces_sysStep.trace_fault hboot halone
      (reduces_stmtStep.trace_fault (stands_boot board) hm h)

/-- Started for SD, with a second configuration between two flags, and a block in whose middle the
    next start interrupt is seen. -/
def benchInterleaving : List Stmt :=
  [.app (some (.acqStart { benchProfile with savePosition := 0 } 5 fun _ => 0)), .check, .startIrq,
    .mesgSeen, .mesgClear, .mesgReady, .mesgFlag,
    .app (some (.acqStart { shortProfile with savePosition := 0 } 6 fun _ => 0)), .mesgTotal,
    .mesgFile 7 true, .dataIrq, .check, .dataSeen, .dataClear, .test zeroBram, .deliver, .startIrq,
    .deliver, .mesgSeen, .deliver, .mesgClear, .deliver, .deliver, .mesgReady]

theorem interleaved_atomic_bench : ∃ f outs b outs',
    trace stmtStep (Threads.boot benchBoard) benchInterleaving = .ok (f, outs) ∧
      trace eventStep benchBoard
        [.acqStart { benchProfile with savePosition := 0 } 5 fun _ => 0,
          .acqStart { shortProfile with savePosition := 0 } 6 fun _ => 0, .startIrq 7 true,
          .dataIrq zeroBram] = .ok (b, outs') ∧
      outs.flatten = outs'.flatten ∧ f.mesg.settled f.board = mesgFlags b := by
  have hm : Meets (next stmtStep) Apart (Threads.boot benchBoard) benchInterleaving := by decide
  obtain ⟨f, outs, h, hblock, hmesg⟩ : ∃ f outs,
    trace stmtStep (Threads.boot benchBoard) benchInterleaving = .ok (f, outs) ∧
      f.main.inBlock = false ∧ f.mesg.whole = .opening ∧ f.board.uiSavePC = 0 :=
    ⟨_, _, rfl, rfl, rfl, rfl⟩
  obtain ⟨b, outs', held, hb, hflat, -, hboard⟩ := (interleaved_atomic hm).1 f outs h
  obtain ⟨rfl, hsettled⟩ := hboard hblock
  rw [List.append_nil] at hflat
  rw [if_pos hmesg] at hsettled
  exact ⟨f, outs, b, outs', h, hb, hflat, hsettled⟩

end AcqBoard.App
