import TronBoss.File.Pipe
import TronBoss.Lib.Bytes
import TronBoss.Lib.RingBuffer

/-!
# The line discipline of the console

`consoleintr` gets characters one after the other, and any number of processes are in `consoleread`.
A step is a character or a turn of the loop of `consoleread`; the lock of the console is left out,
it only rules out some of the interleavings. `committed` are the bytes that `input.w` has passed, and
`log` says what the reads have done with them.
-/

namespace TronBoss.File

open Lib Function List

/-- What a read does: it stores a byte, or a `^D` ends it when it has stored `dst`. -/
inductive ReadEvent (T : Type) where
  | store (t : T) (x : UInt8)
  | eof (t : T) (dst : List UInt8) (dropped : Bool)
  deriving DecidableEq

/-- The bytes that leave the buffer. -/
def ReadEvent.taken {T : Type} : ReadEvent T → List UInt8
  | .store _ x => [x]
  | .eof _ _ dropped => if dropped then [ctrl 'D'] else []

/-- A `^D` is not stored, and it is dropped exactly when the read has stored nothing. -/
def ReadEvent.Ok {T : Type} : ReadEvent T → Prop
  | .store _ x => x ≠ ctrl 'D'
  | .eof _ dst dropped => dropped = true ↔ dst = []

/-- A call of `consoleread`, with the bytes it has stored. -/
structure ReadCall where
  n : Int32
  target : UInt32
  dst : List UInt8

/-- The console, the calls of the processes, and what has happened. -/
structure Console (T : Type) where
  input : Input
  call : T → Option ReadCall
  committed : List UInt8
  log : List (ReadEvent T)

inductive ConsoleAct (T : Type) where
  /-- A character in `consoleintr`. -/
  | intr (x : UInt8)
  /-- A call of `consoleread`. -/
  | read (t : T) (n : Int32)
  /-- The test `n > 0` of a call and, when there is input, a turn of its loop. -/
  | turn (t : T)
  /-- A call without input finds that the process is killed. -/
  | killed (t : T)

section
variable {T : Type} [DecidableEq T]

def Console.setCall (s : Console T) (t : T) (c : Option ReadCall) : Console T :=
  { s with call := update s.call t c }

/-- What a read does, and the input after it. -/
def Console.note (s : Console T) (b : Input) (e : ReadEvent T) : Console T :=
  { s with input := b, log := s.log ++ [e] }

/-- A turn of the loop of `consoleread`. -/
def Console.turn (s : Console T) (t : T) (c : ReadCall) : Console T :=
  match consolereadTurn c.n c.target s.input with
  | (.eof, b) => (s.note b (.eof t c.dst (b.r ≠ s.input.r))).setCall t none
  | (.line x, b) => (s.note b (.store t x)).setCall t none
  | (.more x, b) => (s.note b (.store t x)).setCall t (some ⟨c.n - 1, c.target, c.dst ++ [x]⟩)

def Console.step (s : Console T) : ConsoleAct T → Except Stop (Console T)
  | .intr x =>
    let b := (consoleintrChar x s.input).1
    .ok { s with input := b, committed := s.committed ++ ring INPUT_BUF b.buf s.input.w b.w }
  | .read t n => do
    require (s.call t = none)
    return s.setCall t (some ⟨n, n.toUInt32, []⟩)
  | .turn t =>
    match s.call t with
    | none => .error .disabled
    | some c => do
      if 0 < c.n then
        require (s.input.r ≠ s.input.w)
        return s.turn t c
      else return s.setCall t none
  | .killed t => do
    require ((s.call t).isSome ∧ s.input.r = s.input.w)
    return s.setCall t none

/-- The console before any input. -/
def Console.start (buf : Nat → UInt8) : Console T := ⟨⟨buf, 0, 0, 0⟩, fun _ => none, [], []⟩

end

/-! ## The counters -/

/-- What holds of the counters. -/
structure Input.Ok (b : Input) : Prop where
  le : b.w - b.r ≤ b.e - b.r
  cap : b.e - b.r ≤ INPUT_BUF
  full : b.e - b.r = INPUT_BUF → b.w = b.e

section
variable {b : Input}

theorem toNat_INPUT_BUF : INPUT_BUF.toNat = 128 := rfl

/-- The same with natural numbers. -/
theorem Input.ok_iff : b.Ok ↔ (b.w - b.r).toNat ≤ (b.e - b.r).toNat ∧ (b.e - b.r).toNat ≤ 128 ∧
    ((b.e - b.r).toNat = 128 → b.w.toNat = b.e.toNat) := by
  rw [← toNat_INPUT_BUF]
  simp only [UInt32.toNat_inj, ← UInt32.le_iff_toNat_le]
  exact ⟨fun h => ⟨h.le, h.cap, h.full⟩, fun h => ⟨h.1, h.2.1, h.2.2⟩⟩

/-- The editing keys move `input.e` back, but not behind `input.w`. -/
theorem Input.Ok.back (h : b.Ok) (he : b.e ≠ b.w) : Input.Ok { b with e := b.e - 1 } := by
  rw [ok_iff] at h ⊢
  simp only [ne_eq, ← UInt32.toNat_inj, UInt32.toNat_sub, UInt32.toNat_one] at he h ⊢
  have hw := b.w.toNat_lt
  have hlt := b.e.toNat_lt
  omega

theorem killLine_ok (h : b.Ok) (fuel : Nat) :
    (killLine fuel b).Ok ∧ ∃ e, killLine fuel b = { b with e := e } := by
  induction fuel generalizing b with
  | zero => exact ⟨h, b.e, rfl⟩
  | succ fuel ih =>
    rw [killLine]
    split
    · rename_i he
      obtain ⟨hok, e, heq⟩ := ih (h.back he.1)
      exact ⟨hok, e, heq⟩
    · exact ⟨h, b.e, rfl⟩

/-- A character is stored behind the others, and `input.w` follows when the buffer is full. -/
theorem Input.Ok.put (h : b.Ok) (hroom : b.e - b.r < INPUT_BUF) {b' : Input} (hr : b'.r = b.r)
    (he : b'.e = b.e + 1) (hw : b'.w = b'.e ∨ b'.w = b.w ∧ b'.e ≠ b'.r + INPUT_BUF) : b'.Ok := by
  have hsucc := toNat_succ_sub (UInt32.lt_iff_toNat_lt.1 hroom)
  have hle := UInt32.le_iff_toNat_le.1 h.le
  rw [UInt32.lt_iff_toNat_lt] at hroom
  refine ⟨?_, ?_, fun hfull => ?_⟩
  · rcases hw with hw | hw
    · rw [hw]
      exact UInt32.le_refl _
    · rw [hw.1, hr, he, UInt32.le_iff_toNat_le, hsucc]
      omega
  · rw [hr, he, UInt32.le_iff_toNat_le, hsucc]
    omega
  · refine hw.resolve_right fun hw => hw.2 ?_
    rw [← hfull, UInt32.add_comm, UInt32.sub_add_cancel]

/-- A read takes a byte. -/
theorem Input.Ok.get (h : b.Ok) (hne : b.r ≠ b.w) : Input.Ok { b with r := b.r + 1 } := by
  rw [ok_iff] at h ⊢
  simp only [ne_eq, ← UInt32.toNat_inj, UInt32.toNat_sub, UInt32.toNat_add, UInt32.toNat_one]
    at hne h ⊢
  have hr := b.r.toNat_lt
  have hw := b.w.toNat_lt
  omega

/-! ## The bytes -/

/-- The bytes between `input.r` and `input.w`. -/
def Input.bytes (b : Input) : List UInt8 := ring INPUT_BUF b.buf b.r b.w

/-- A character leaves the bytes before `input.w` alone, and may commit more bytes behind them. -/
theorem consoleintrChar_spec (h : b.Ok) (x : UInt8) :
    (consoleintrChar x b).1.Ok ∧ (consoleintrChar x b).1.bytes =
      b.bytes ++ ring INPUT_BUF (consoleintrChar x b).1.buf b.w (consoleintrChar x b).1.w := by
  have hsame : ∀ {b' : Input}, b'.Ok → (∃ e, b' = { b with e := e }) →
      b'.Ok ∧ b'.bytes = b.bytes ++ ring INPUT_BUF b'.buf b.w b'.w := by
    rintro _ hok ⟨e, rfl⟩
    exact ⟨hok, by rw [ring_self, append_nil]; rfl⟩
  unfold consoleintrChar
  split
  · exact hsame h ⟨b.e, rfl⟩
  split
  · exact hsame (killLine_ok h _).1 (killLine_ok h _).2
  split
  · split
    · rename_i he
      exact hsame (h.back he) ⟨_, rfl⟩
    · exact hsame h ⟨b.e, rfl⟩
  split
  · exact hsame h ⟨b.e, rfl⟩
  split
  · rename_i hroom
    extract_lets c b1
    have hput : ∀ {b' : Input}, b'.buf = b1.buf → b'.r = b.r → b'.e = b1.e →
        (b'.w = b'.e ∨ b'.w = b.w ∧ b'.e ≠ b'.r + INPUT_BUF) →
        b'.Ok ∧ b'.bytes = b.bytes ++ ring INPUT_BUF b'.buf b.w b'.w := by
      intro b' hbuf hr he hw
      have hle := UInt32.le_iff_toNat_le.1 h.le
      have hlt := UInt32.lt_iff_toNat_lt.1 hroom.2
      have hsucc := toNat_succ_sub hlt
      have hold : ring INPUT_BUF b1.buf b.r b.w = b.bytes := by
        rw [ring_take (e := b.e + 1) (by omega), ring_put ⟨2 ^ 25, rfl⟩ hlt,
          take_append_of_le_length, ← ring_take hle]
        · rfl
        · rwa [length_ring]
      refine ⟨h.put hroom.2 hr he hw, ?_⟩
      rw [Input.bytes, hr, hbuf, ← hold]
      refine (ring_append ?_).symm
      rcases hw with hw | hw
      · rw [hw, he]
        exact hle.trans (Nat.le_of_lt (hsucc ▸ Nat.lt_succ_self _))
      · rw [hw.1]
    split
    · exact hput rfl rfl rfl (.inl rfl)
    · rename_i hno
      exact hput rfl rfl rfl (.inr ⟨rfl, fun e => hno (.inr (.inr e))⟩)
  · exact hsame h ⟨b.e, rfl⟩

end

/-! ## Runs -/

/-- A call counts the bytes that it has stored. -/
structure ReadCall.Ok (c : ReadCall) : Prop where
  target : c.target = c.n.toUInt32 + UInt32.ofNat c.dst.length
  pos : c.dst ≠ [] → 0 ≤ c.n.toInt ∧ c.n.toInt + c.dst.length < 2 ^ 31

/-- The test of `consoleread` when it finds a `^D`. -/
theorem ReadCall.Ok.lt_target_iff {c : ReadCall} (h : c.Ok) :
    c.n.toUInt32 < c.target ↔ c.dst ≠ [] := by
  by_cases hdst : c.dst = []
  · simp [h.target, hdst]
  · have hpos := h.pos hdst
    have hlen := length_pos_iff.2 hdst
    refine iff_of_true ?_ hdst
    rw [h.target, UInt32.lt_iff_toNat_lt, UInt32.toNat_add, UInt32.toNat_ofNat', toNat_toUInt32]
    omega

/-- Another byte is stored. -/
theorem ReadCall.Ok.next {c : ReadCall} (h : c.Ok) (hn : 0 < c.n) (x : UInt8) :
    ReadCall.Ok ⟨c.n - 1, c.target, c.dst ++ [x]⟩ := by
  have hpos := Int32.lt_iff_toInt_lt.1 hn
  have hlt := c.n.toInt_lt
  have hsub : (c.n - 1).toInt = c.n.toInt - 1 := by
    rw [Int32.toInt_sub, Int.bmod_def]
    simp only [Int32.toInt_zero, Int32.toInt_one] at hpos ⊢
    omega
  refine ⟨?_, fun _ => ?_⟩
  · rw [h.target, length_append, length_singleton, UInt32.ofNat_add, Int32.toUInt32_sub,
      UInt32.add_comm (UInt32.ofNat c.dst.length), ← UInt32.add_assoc]
    exact congrArg (· + _) (UInt32.sub_add_cancel ..).symm
  · rw [hsub, length_append, length_singleton]
    simp only [Int32.toInt_zero] at hpos
    by_cases hdst : c.dst = []
    · simp only [hdst, length_nil]
      omega
    · have := h.pos hdst
      omega

section
variable {T : Type} {s : Console T}

/-- What holds in a run. -/
structure Console.Inv (s : Console T) : Prop where
  input : s.input.Ok
  bytes : s.committed = s.log.flatMap ReadEvent.taken ++ s.input.bytes
  log : ∀ e ∈ s.log, e.Ok
  call : ∀ t c, s.call t = some c → c.Ok

theorem Console.Inv.note (h : s.Inv) {b : Input} {e : ReadEvent T} (hb : b.Ok)
    (he : e.Ok) (htaken : s.input.bytes = e.taken ++ b.bytes) : (s.note b e).Inv := by
  refine ⟨hb, ?_, fun e' he' => ?_, h.call⟩
  · rw [Console.note, h.bytes, htaken, flatMap_append, append_assoc]
    simp
  · rcases mem_append.1 he' with he' | he'
    · exact h.log e' he'
    · rwa [mem_singleton.1 he']

variable [DecidableEq T]

theorem Console.Inv.setCall (h : s.Inv) {t : T} {x : Option ReadCall}
    (hx : ∀ c, x = some c → c.Ok) : (s.setCall t x).Inv := by
  refine ⟨h.input, h.bytes, h.log, fun t' c hc => ?_⟩
  by_cases e : t' = t
  · subst e
    exact hx c ((update_self (β := fun _ => Option ReadCall) ..).symm.trans hc)
  · exact h.call t' c ((update_of_ne e ..).symm.trans hc)

/-- A turn of the loop of `consoleread`. -/
theorem Console.Inv.turn (h : s.Inv) {t : T} {c : ReadCall} (hc : c.Ok)
    (hn : 0 < c.n) (hne : s.input.r ≠ s.input.w) : (s.turn t c).Inv := by
  have hget : s.input.bytes = s.input.buf (s.input.r % INPUT_BUF).toNat ::
      Input.bytes { s.input with r := s.input.r + 1 } := ring_get hne
  have hok := h.input.get hne
  unfold Console.turn consolereadTurn
  by_cases hD : s.input.buf (s.input.r % INPUT_BUF).toNat = ctrl 'D'
  · by_cases hlt : c.n.toUInt32 < c.target
    · simp only [if_pos hD, if_pos hlt, UInt32.add_sub_cancel]
      refine (h.note h.input ?_ ?_).setCall nofun
      · simpa [ReadEvent.Ok] using hc.lt_target_iff.1 hlt
      · simp [ReadEvent.taken, Input.bytes]
    · simp only [if_pos hD, if_neg hlt]
      refine (h.note hok ?_ ?_).setCall nofun
      · simpa [ReadEvent.Ok] using hc.lt_target_iff.not.1 hlt
      · rw [hget, hD]
        simp [ReadEvent.taken]
  · have hnote := h.note hok (e := .store t _) hD hget
    by_cases hnl : s.input.buf (s.input.r % INPUT_BUF).toNat = 10
    · simp only [if_neg hD, if_pos hnl]
      exact hnote.setCall nofun
    · simp only [if_neg hD, if_neg hnl]
      refine hnote.setCall ?_
      rintro _ ⟨⟩
      exact hc.next hn _

/-- Interrupts and readers keep the invariant of the ring. -/
theorem Console.Inv.step {s' : Console T} {a : ConsoleAct T} (h : s.Inv)
    (hs : s.step a = .ok s') : s'.Inv := by
  cases a with
  | intr x =>
    cases hs
    obtain ⟨hok, hbytes⟩ := consoleintrChar_spec h.input x
    refine ⟨hok, ?_, h.log, h.call⟩
    rw [hbytes, ← append_assoc, ← h.bytes]
  | read t n =>
    obtain ⟨_, -, hs⟩ := bind_eq_ok.1 hs
    cases hs
    refine h.setCall ?_
    rintro _ ⟨⟩
    exact ⟨by simp, fun e => absurd rfl e⟩
  | turn t =>
    rw [Console.step] at hs
    split at hs
    · cases hs
    · rename_i c hc
      split at hs
      · obtain ⟨_, hne, hs⟩ := bind_eq_ok.1 hs
        cases hs
        exact h.turn (h.call t c hc) ‹_› (require_eq_ok.1 hne)
      · cases hs
        exact h.setCall nofun
  | killed t =>
    obtain ⟨_, -, hs⟩ := bind_eq_ok.1 hs
    cases hs
    exact h.setCall nofun

/-- The line discipline, for every interleaving of characters with calls of `consoleread`: the
counters stay in order, and `input.w` is at `input.e` when the buffer is full. The bytes that were
committed are those that the reads have taken, in this order, and those in the buffer. A `^D` ends a
read, it is not stored, and it leaves the buffer exactly when the read has stored nothing. -/
theorem console_line_discipline {buf : Nat → UInt8} {as : List (ConsoleAct T)} {s : Console T}
    (h : as.foldlM Console.step (.start buf) = .ok s) :
    (s.input.w - s.input.r ≤ s.input.e - s.input.r ∧ s.input.e - s.input.r ≤ INPUT_BUF ∧
      (s.input.e - s.input.r = INPUT_BUF → s.input.w = s.input.e)) ∧
    s.committed = s.log.flatMap ReadEvent.taken ++
      ring INPUT_BUF s.input.buf s.input.r s.input.w ∧
    ∀ e ∈ s.log, e.Ok := by
  have hstart : (Console.start (T := T) buf).Inv :=
    ⟨⟨UInt32.le_refl _, show (0 - 0 : UInt32) ≤ 128 by decide, fun _ => rfl⟩, ring_self.symm,
      nofun, nofun⟩
  have hI := foldlM_keeps (fun _ => Console.Inv.step) hstart h
  exact ⟨⟨hI.input.le, hI.input.cap, hI.input.full⟩, hI.bytes, hI.log⟩

end

/-- A line with a `^D` behind it, and two reads: the first stores the line, and the `^D` ends the
second. -/
def lineThenEof : List (ConsoleAct Unit) :=
  [.intr 120, .intr 0x7f, .intr 97, .intr 13, .intr (ctrl 'D'), .read () 5, .turn (), .turn (),
    .read () 5, .turn ()]

/-- The `x` that was erased is not committed. -/
theorem console_line_discipline_lineThenEof : ∃ s : Console Unit,
    lineThenEof.foldlM Console.step (.start fun _ => 0) = .ok s ∧
      s.committed = [97, 10, ctrl 'D'] ∧
      s.log = [.store () 97, .store () 10, .eof () [] true] ∧ ∀ e ∈ s.log, e.Ok := by
  obtain ⟨s, hs, hd⟩ := exists_ok (x := lineThenEof.foldlM Console.step (.start fun _ => 0))
    (f := fun s => decide (s.committed = [97, 10, ctrl 'D'] ∧
      s.log = [.store () 97, .store () 10, .eof () [] true])) (by decide +kernel)
  have hlog := of_decide_eq_true hd
  exact ⟨s, hs, hlog.1, hlog.2, (console_line_discipline hs).2.2⟩

end TronBoss.File
