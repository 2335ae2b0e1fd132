import AcqBoard.App.Interleave

/-! The command link of the PC: what `App` makes of the byte stream it receives.

    The PC sends 8-byte headers; TCP delivers their bytes in pieces. `App` takes each `recvfrom`
    result as one message: it reads the command from the first two bytes of the receive buffer, runs
    its handler, and sends the buffer back, in which the handler has left its acknowledgement. There
    is no framing, so what is answered is the results and not the headers. -/

namespace AcqBoard.App
open Schemes

/-- `TCP_BUFF_SIZE`. -/
def tcpBuffSize : ℕ := 1032

inductive Handler where
  | acqStart | acqStop
  deriving DecidableEq

/-- `s_CmdHandler`. -/
def cmdHandler : List (UInt16 × Handler) := [(0x1001, .acqStart), (0x1003, .acqStop)]

def getCmdHandler (usCmd : UInt16) : Option Handler :=
  (cmdHandler.find? fun d => usCmd == d.1).map (·.2)

/-- `ACQ_START_ACK`, `ACQ_STOP_ACK`: the command that a handler leaves in the buffer. -/
def Handler.ack : Handler → UInt16
  | .acqStart => 0x1002
  | .acqStop => 0x1004

/-- The bytes of a half word in memory, least significant first. -/
def le16 (x : UInt16) : List UInt8 := [x.toUInt8, (x >>> 8).toUInt8]

/-- The half word at the head of the bytes. -/
def readLe16 (bs : List UInt8) : UInt16 :=
  UInt16.ofNat ((bs.getD 0 0).toNat + 256 * (bs.getD 1 0).toNat)

/-- `CmdHeader`. -/
structure Header where
  usCmd : UInt16
  usLength : UInt16
  uiReserved : UInt32

def Header.bytes (x : Header) : List UInt8 := le16 x.usCmd ++ le16 x.usLength ++ le32 x.uiReserved

/-- The acknowledgement of a header: the next command, length 0, the reserved word sent back. -/
def Header.ackBytes (x : Header) : List UInt8 :=
  le16 (x.usCmd + 1) ++ le16 0 ++ le32 x.uiReserved

/-- One `recvfrom` result, with what `AcqStart` finds if it is run on it. -/
structure Received where
  bytes : List UInt8
  nonempty : bytes ≠ []
  fits : bytes.length ≤ tcpBuffSize
  profile : Profile
  uiSeconds : UInt32
  bitBuff : ℕ → UInt8

def Received.command (r : Received) : Handler → Command
  | .acqStart => .acqStart r.profile r.uiSeconds r.bitBuff
  | .acqStop => .acqStop

/-- `s_pTcpBuff` and `s_uiTcpSendLen`. -/
structure Link where
  tcpBuff : List UInt8
  full : tcpBuff.length = tcpBuffSize
  tcpSendLen : UInt32

def Link.boot : Link := ⟨List.replicate tcpBuffSize 0, List.length_replicate, 0⟩

/-- `recvfrom` puts the result at the front of the buffer and leaves the rest. -/
def Link.receive (k : Link) (r : Received) : Link :=
  { k with
    tcpBuff := r.bytes ++ k.tcpBuff.drop r.bytes.length
    full := by have := k.full; have := r.fits; simp; omega }

/-- The acknowledgement that a handler leaves: `usCmd`, `usLength` and the length to send. -/
def Link.acknowledge (k : Link) (h : Handler) : Link :=
  { tcpBuff := le16 h.ack ++ le16 0 ++ k.tcpBuff.drop 4
    full := by have := k.full; simp [le16, tcpBuffSize] at this ⊢; omega
    tcpSendLen := 8 }

/-- What `send` takes of the buffer. -/
def Link.reply (k : Link) : List UInt8 := k.tcpBuff.take k.tcpSendLen.toNat

/-- What `App` did with one result: the command it read, the handler it ran, the bytes it sent. -/
structure Answer where
  usCmd : UInt16
  handler : Option Handler
  reply : List UInt8

/-- `App` on a `recvfrom` result. -/
def app (b : Board) (k : Link) (r : Received) : Except Fault ((Board × Link) × Answer) :=
  let k := k.receive r
  let usCmd := readLe16 k.tcpBuff
  match getCmdHandler usCmd with
  | some h => do
    let b ← runCommand b (some (r.command h))
    let k := k.acknowledge h
    pure ((b, k), ⟨usCmd, some h, k.reply⟩)
  | none => pure ((b, k), ⟨usCmd, none, k.reply⟩)

/-- `App` on one result after the other: the board and the link behind the last one, and the answers. -/
def appRun : Board → Link → List Received → Except Fault ((Board × Link) × List Answer)
  | b, k, [] => .ok ((b, k), [])
  | b, k, r :: rs => do
    let s ← app b k r
    let t ← appRun s.1.1 s.1.2 rs
    pure (t.1, s.2 :: t.2)

/-- The handlers that were run, in order. -/
def handlersRun (answers : List Answer) : List Handler := answers.filterMap Answer.handler

/-- What was sent when a handler was run, in order. -/
def repliesOf (answers : List Answer) : List (List UInt8) :=
  (answers.filter fun a => a.handler.isSome).map Answer.reply

/-- The handlers of the recognised headers, in order. -/
def handlersOf (xs : List Header) : List Handler := xs.filterMap fun x => getCmdHandler x.usCmd

/-- The acknowledgements of the recognised headers, in order. -/
def acksOf (xs : List Header) : List (List UInt8) :=
  (xs.filter fun x => (getCmdHandler x.usCmd).isSome).map Header.ackBytes

/-- How a result is answered: by the handler of the command at the head of the receive buffer (of the
    result, if it has two bytes), which is all that is done to the board, and which is acknowledged by
    exactly 8 bytes. -/
structure Answered (b : Board) (k : Link) (r : Received) (c : Board) (l : Link) (a : Answer) :
    Prop where
  usCmd : a.usCmd = readLe16 (k.receive r).tcpBuff
  head : 2 ≤ r.bytes.length → a.usCmd = readLe16 r.bytes
  handler : a.handler = getCmdHandler a.usCmd
  board : runCommand b (a.handler.map r.command) = .ok c
  link : l = a.handler.elim (k.receive r) (k.receive r).acknowledge
  reply : a.handler.isSome →
    a.reply = le16 (a.usCmd + 1) ++ le16 0 ++ ((k.receive r).tcpBuff.drop 4).take 4

/-- Every result is answered, on the board and the buffer as the one before has left them. -/
inductive AllAnswered : Board → Link → List Received → Board → Link → List Answer → Prop
  | nil (b : Board) (k : Link) : AllAnswered b k [] b k []
  | cons {b c d : Board} {k l m : Link} {r : Received} {rs : List Received} {a : Answer}
      {answers : List Answer} : Answered b k r c l a → AllAnswered c l rs d m answers →
      AllAnswered b k (r :: rs) d m (a :: answers)

/-- A result that is a header, with unrecognised ones behind it. -/
structure Joined where
  first : Header
  rest : List Header
  unknown : ∀ x ∈ rest, getCmdHandler x.usCmd = none

def Joined.headers (j : Joined) : List Header := j.first :: j.rest

theorem ack_of_getCmdHandler {usCmd : UInt16} {h : Handler} (hh : getCmdHandler usCmd = some h) :
    h.ack = usCmd + 1 := by
  obtain ⟨d, hd, rfl⟩ := Option.map_eq_some_iff.mp hh
  obtain rfl : usCmd = d.1 := by simpa using List.find?_some hd
  have hmem := List.mem_of_find?_eq_some hd
  simp only [cmdHandler, List.mem_cons, List.not_mem_nil, or_false] at hmem
  rcases hmem with rfl | rfl <;> rfl

theorem readLe16_append {bs l : List UInt8} (h : 2 ≤ bs.length) :
    readLe16 (bs ++ l) = readLe16 bs := by
  match bs, h with
  | _ :: _ :: _, _ => rfl

theorem readLe16_le16 (x : UInt16) (l : List UInt8) : readLe16 (le16 x ++ l) = x := by
  have hlt := x.toNat_lt
  have h₀ : x.toUInt8.toNat = x.toNat % 256 := UInt16.toNat_toUInt8 x
  have h₁ : (x >>> 8).toUInt8.toNat = x.toNat / 256 % 256 := by
    rw [UInt16.toNat_toUInt8, UInt16.toNat_shiftRight, Nat.shiftRight_eq_div_pow]
    rfl
  apply UInt16.toNat_inj.mp
  simp only [readLe16, le16, List.cons_append, List.getD_cons_zero, List.getD_cons_succ, h₀, h₁,
    UInt16.toNat_ofNat']
  omega

/-- What `App` does with one result. -/
theorem answered_of_app {b c : Board} {k l : Link} {r : Received} {a : Answer}
    (h : app b k r = .ok ((c, l), a)) : Answered b k r c l a := by
  unfold app at h
  dsimp only at h
  split at h
  · rename_i hd hhd
    obtain ⟨d, hd', h⟩ := bind_eq_ok.mp h
    obtain ⟨hstate, rfl⟩ := Prod.mk.inj (pure_eq_ok.mp h)
    obtain ⟨rfl, rfl⟩ := Prod.mk.inj hstate
    refine ⟨rfl, readLe16_append, hhd.symm, hd', rfl, fun _ => ?_⟩
    rw [← ack_of_getCmdHandler hhd]
    rfl
  · rename_i hnone
    obtain ⟨hstate, rfl⟩ := Prod.mk.inj (pure_eq_ok.mp h)
    obtain ⟨rfl, rfl⟩ := Prod.mk.inj hstate
    exact ⟨rfl, readLe16_append, hnone.symm, rfl, rfl, fun hsome => by simp at hsome⟩

/-- A result of whole headers is answered as its first header asks. -/
theorem app_joined {b c : Board} {k l : Link} {r : Received} {a : Answer} {j : Joined}
    (hr : r.bytes = j.headers.flatMap Header.bytes) (h : app b k r = .ok ((c, l), a)) :
    a.handler = getCmdHandler j.first.usCmd ∧
      (a.handler.isSome → a.reply = j.first.ackBytes) := by
  obtain ⟨hcmd, -, hhd, -, -, hreply⟩ := answered_of_app h
  have hbuff : (k.receive r).tcpBuff = le16 j.first.usCmd ++ (le16 j.first.usLength ++
      (le32 j.first.uiReserved ++ (j.rest.flatMap Header.bytes ++ k.tcpBuff.drop r.bytes.length)))
      := by
    simp [Link.receive, hr, Joined.headers, Header.bytes]
  have husCmd : a.usCmd = j.first.usCmd := by rw [hcmd, hbuff, readLe16_le16]
  rw [← husCmd]
  refine ⟨hhd, ?_⟩
  intro hsome
  rw [hreply hsome, hbuff, husCmd]
  rfl

theorem appRun_cons_ok {b d : Board} {k m : Link} {r : Received} {rs : List Received}
    {answers : List Answer} (h : appRun b k (r :: rs) = .ok ((d, m), answers)) :
    ∃ c l a rest, app b k r = .ok ((c, l), a) ∧ appRun c l rs = .ok ((d, m), rest) ∧
      answers = a :: rest := by
  obtain ⟨⟨⟨c, l⟩, a⟩, ha, h⟩ := bind_eq_ok.mp h
  obtain ⟨⟨t, rest⟩, hrest, h⟩ := bind_eq_ok.mp h
  obtain ⟨rfl, rfl⟩ := Prod.mk.inj (pure_eq_ok.mp h)
  exact ⟨c, l, a, rest, ha, hrest, rfl⟩

/-- Every result of every stream is answered. -/
theorem appRun_answered {rs : List Received} {b c : Board} {k l : Link} {answers : List Answer}
    (h : appRun b k rs = .ok ((c, l), answers)) : AllAnswered b k rs c l answers := by
  induction rs generalizing b k answers with
  | nil =>
    obtain ⟨hstate, rfl⟩ := Prod.mk.inj (Except.ok.inj h)
    obtain ⟨rfl, rfl⟩ := Prod.mk.inj hstate
    exact .nil b k
  | cons r rs ih =>
    obtain ⟨_, _, _, _, ha, hrest, rfl⟩ := appRun_cons_ok h
    exact .cons (answered_of_app ha) (ih hrest)

theorem handlersOf_joined (j : Joined) :
    handlersOf j.headers = (getCmdHandler j.first.usCmd).toList := by
  have hrest : handlersOf j.rest = [] := List.filterMap_eq_nil_iff.mpr j.unknown
  unfold handlersOf at hrest ⊢
  rw [Joined.headers, List.filterMap_cons, hrest]
  cases getCmdHandler j.first.usCmd <;> rfl

theorem acksOf_joined (j : Joined) :
    acksOf j.headers = if (getCmdHandler j.first.usCmd).isSome then [j.first.ackBytes] else [] := by
  have hrest : j.rest.filter (fun x => (getCmdHandler x.usCmd).isSome) = [] :=
    List.filter_eq_nil_iff.mpr fun x hx => by simp [j.unknown x hx]
  rw [acksOf, Joined.headers, List.filter_cons, hrest]
  split <;> rfl

/-- Results of whole headers, only the first of each recognised, are answered header by header. -/
theorem appRun_joined : ∀ {js : List Joined} {rs : List Received} {b c : Board} {k l : Link}
    {answers : List Answer},
    rs.map Received.bytes = js.map (fun j => j.headers.flatMap Header.bytes) →
    appRun b k rs = .ok ((c, l), answers) →
    handlersRun answers = handlersOf (js.flatMap Joined.headers) ∧
      repliesOf answers = acksOf (js.flatMap Joined.headers)
  | [], [], _, _, _, _, _, _, h => by
      obtain ⟨-, rfl⟩ := Prod.mk.inj (Except.ok.inj h)
      exact ⟨rfl, rfl⟩
  | [], _ :: _, _, _, _, _, _, hrs, _ => by simp at hrs
  | _ :: _, [], _, _, _, _, _, hrs, _ => by simp at hrs
  | j :: js, r :: rs, _, _, _, _, _, hrs, h => by
      obtain ⟨hr, hrs⟩ := List.cons.inj hrs
      obtain ⟨_, _, a, rest, ha, hrest, rfl⟩ := appRun_cons_ok h
      obtain ⟨hhd, hreply⟩ := app_joined hr ha
      obtain ⟨ih₁, ih₂⟩ := appRun_joined hrs hrest
      have hsplit₁ : handlersOf ((j :: js).flatMap Joined.headers) =
          handlersOf j.headers ++ handlersOf (js.flatMap Joined.headers) := by
        simp [handlersOf, List.flatMap_cons, List.filterMap_append]
      have hsplit₂ : acksOf ((j :: js).flatMap Joined.headers) =
          acksOf j.headers ++ acksOf (js.flatMap Joined.headers) := by
        simp [acksOf, List.flatMap_cons, List.filter_append]
      rw [hsplit₁, hsplit₂, handlersOf_joined, acksOf_joined, ← ih₁, ← ih₂, ← hhd]
      constructor
      · rw [handlersRun, List.filterMap_cons]
        cases a.handler <;> rfl
      · rw [repliesOf, List.filter_cons]
        cases hsome : a.handler.isSome with
        | true =>
          simp only [if_true, List.map_cons, hreply hsome]
          rfl
        | false => rfl

/-- CORRECT: however the stream is cut into `recvfrom` results, `App` runs at most one handler for
    each, that of the command at the head of the buffer, does nothing else to the board, and
    acknowledges it at once by 8 bytes. If every result is made of whole headers, of which only the
    first is a recognised one, the handlers run and the acknowledgements sent are those of the
    recognised headers, once each and in order. -/
theorem app_answers_results {b c : Board} {k l : Link} {rs : List Received} {answers : List Answer}
    (h : appRun b k rs = .ok ((c, l), answers)) :
    AllAnswered b k rs c l answers ∧
    ∀ js : List Joined,
      rs.map Received.bytes = js.map (fun j => j.headers.flatMap Header.bytes) →
      handlersRun answers = handlersOf (js.flatMap Joined.headers) ∧
        repliesOf answers = acksOf (js.flatMap Joined.headers) :=
  ⟨appRun_answered h, fun _ hjs => appRun_joined hjs h⟩

/-- The header of a command without data. -/
def bareHeader (usCmd : UInt16) : Header := ⟨usCmd, 0, 7⟩

/-- A start and a stop command in one result. -/
def startAndStop : Received where
  bytes := [bareHeader 0x1001, bareHeader 0x1003].flatMap Header.bytes
  nonempty := by decide
  fits := by decide
  profile := benchProfile
  uiSeconds := 5
  bitBuff := fun _ => 0

/-- Only the first of two commands that arrive joined is run. -/
theorem app_loses_joined_command : ¬ ∀ (xs : List Header) (rs : List Received)
    (s : Board × Link) (answers : List Answer),
    rs.flatMap Received.bytes = xs.flatMap Header.bytes →
    appRun benchBoard Link.boot rs = .ok (s, answers) →
    handlersRun answers = handlersOf xs ∧ answers.flatMap Answer.reply = (acksOf xs).flatten := by
  intro h
  have hrun := h [bareHeader 0x1001, bareHeader 0x1003] [startAndStop] _ _ rfl rfl
  exact absurd hrun.1 (by decide)

/-- A start command with an unknown one behind it, then a stop command. -/
def startThenStop : List Joined :=
  [⟨bareHeader 0x1001, [bareHeader 0x2001], by decide⟩, ⟨bareHeader 0x1003, [], by decide⟩]

/-- The same in the two results they may arrive in. -/
def startThenStopResults : List Received :=
  [{ startAndStop with
      bytes := [bareHeader 0x1001, bareHeader 0x2001].flatMap Header.bytes
      nonempty := by decide
      fits := by decide },
    { startAndStop with
      bytes := [bareHeader 0x1003].flatMap Header.bytes
      nonempty := by decide
      fits := by decide }]

theorem app_answers_results_two : ∃ s answers,
    appRun benchBoard Link.boot startThenStopResults = .ok (s, answers) ∧
    handlersRun answers = [.acqStart, .acqStop] ∧
    repliesOf answers = [(bareHeader 0x1001).ackBytes, (bareHeader 0x1003).ackBytes] := by
  have hrun : ∃ s answers, appRun benchBoard Link.boot startThenStopResults = .ok (s, answers) :=
    ⟨_, _, rfl⟩
  obtain ⟨s, answers, hrun⟩ := hrun
  exact ⟨s, answers, hrun, (app_answers_results hrun).2 startThenStop rfl⟩

end AcqBoard.App
