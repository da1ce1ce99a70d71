import Mathlib.Data.Fintype.Card
import TronBoss.Ide.Ide

/-!
# The queue of requests

`Driver.Inv s q`: the requests in the queue are `q`, the device works on the first of them or has
finished it, and each process in `iderw` is where its request says it should be. A process sleeps only
while its request is in the queue, so no wakeup is lost, and it looks at its buffer again whenever it
wakes up, so it does not matter what woke it.
-/

namespace TronBoss.Ide

open Lib Function List

variable {P : Type} {E : Stop → Prop} {last : Fin NBUF} {pc : Pc}

/-! ## Registers -/

section
variable {x : Buf P} (hd : x.dev < 2) (hb : x.blockno.toNat < FSSIZE)
include hb

theorem Buf.shiftRight_blockno {k : UInt32} (hk : 11 ≤ k.toNat % 32) : x.blockno >>> k = 0 := by
  have hn : x.blockno.toNat < 2 ^ 11 := lt_trans hb (by decide)
  rw [← UInt32.toNat_inj, UInt32.toNat_shiftRight, Nat.shiftRight_eq_div_pow, UInt32.toNat_zero,
    Nat.div_eq_zero_iff]
  exact .inr (lt_of_lt_of_le hn (Nat.pow_le_pow_right (by decide) hk))

include hd

/-- A block number has none of the top four bits, so the head has the drive only. -/
theorem Buf.regs_head : x.regs.head = if x.dev = 0 then 0xe0 else 0xf0 := by
  have hdev : x.dev = 0 ∨ x.dev = 1 := by
    have h2 : x.dev.toNat < 2 := hd
    rw [← UInt32.toNat_inj, ← UInt32.toNat_inj, UInt32.toNat_zero, UInt32.toNat_one]
    omega
  have h24 : x.blockno >>> 24 = 0 := shiftRight_blockno hb (by decide)
  change (0xe0 : UInt8) ||| ((x.dev &&& 1).toUInt8 <<< 4) ||| ((x.blockno >>> 24).toUInt8 &&& 0x0f) = _
  rw [h24]
  rcases hdev with h0 | h1
  · rw [h0]
    decide
  · rw [h1]
    decide

/-- The registers select the disk and the block of the buffer. -/
theorem Buf.regs_drive : x.regs.drive = (x.dev != 0) := by
  rw [Regs.drive, regs_head hd hb]
  split
  · next h0 =>
    rw [h0]
    decide
  · next h1 =>
    rw [bne_iff_ne.2 h1]
    decide

/-- The registers select the sector with the number of the block. -/
theorem Buf.regs_sector : x.regs.sector = x.blockno.toNat := by
  have hn : x.blockno.toNat < 2000 := hb
  have hhead : x.regs.head &&& 0x0f = 0 := by
    rw [regs_head hd hb]
    split <;> decide
  have h0 : x.regs.lba0.toNat = x.blockno.toNat % 2 ^ 8 := UInt32.toNat_toUInt8 _
  have h1 : x.regs.lba1.toNat = x.blockno.toNat / 2 ^ 8 := by
    have hlt : x.blockno.toNat / 2 ^ 8 < 2 ^ 8 := by omega
    change (x.blockno >>> 8).toUInt8.toNat = _
    rw [UInt32.toNat_toUInt8, UInt32.toNat_shiftRight, Nat.shiftRight_eq_div_pow]
    exact Nat.mod_eq_of_lt hlt
  have h2 : x.regs.lba2 = 0 := by
    change (x.blockno >>> 16).toUInt8 = 0
    rw [shiftRight_blockno hb (by decide)]
    rfl
  rw [Regs.sector, hhead, h0, h1, h2]
  change x.blockno.toNat % 2 ^ 8 + 2 ^ 8 * (x.blockno.toNat / 2 ^ 8) + 0 + 0 = _
  exact Nat.mod_add_div ..

end

/-! ## The invariant -/

/-- The block of a buffer on its disk. -/
def Device.block (d : Device) (x : Buf P) : Block := d.disk (x.dev != 0) x.blockno.toNat

/-- The requests that have arrived. -/
def Driver.arrived (s : Driver P) : List (Fin NBUF) :=
  s.log.flatMap fun | .arrive b => [b] | _ => []

/-- The requests that the device was started on. -/
def Driver.started (s : Driver P) : List (Fin NBUF) :=
  s.log.flatMap fun | .start b => [b] | _ => []

/-- The requests that `ideintr` has finished. -/
def Driver.finished (s : Driver P) : List (Fin NBUF) :=
  s.log.flatMap fun | .finish b => [b] | _ => []

/-- The process is in the loop of `iderw`. -/
def Pc.Waits (pc : Pc) (b : Fin NBUF) (want : Option Block) : Prop :=
  pc = .asleep b want ∨ pc = .awake b want

/-- The buffer still has to be read or written, and this is what has to be written. -/
def Buf.Asked (x : Buf P) (want : Option Block) : Prop :=
  x.done = false ∧ want = if x.dirty then some x.data else none

/-- The buffer has been read or written. -/
structure Buf.Synced (x : Buf P) (want : Option Block) (d : Device) : Prop where
  done : x.done = true
  data : x.data = d.block x
  wanted : ∀ w ∈ want, x.data = w

/-- The device works on the request for the buffer, or has finished it and raised the interrupt. -/
inductive Device.Engaged (d : Device) (x : Buf P) : Prop where
  | busy (hc : d.command = some x.command) (hirq : d.irq = false)
  | read (hc : d.command = none) (hirq : d.irq = true) (hs : d.status &&& errorBits = 0)
      (hd : x.dirty = false) (hdata : d.port = d.block x)
  | written (hc : d.command = none) (hirq : d.irq = true) (hd : x.dirty = true)
      (hdata : x.data = d.block x)

/-- What the device does for the first request. -/
def Driver.Serves (s : Driver P) : List (Fin NBUF) → Prop
  | [] => s.device.command = none ∧ s.device.irq = false
  | b :: _ => (s.buf b).blockno.toNat < FSSIZE ∧ s.device.Engaged (s.buf b)

/-- What holds of a process. -/
def Driver.Placed (s : Driver P) (q : List (Fin NBUF)) : Pc → Prop
  | .out => True
  | .called b want => b ∉ q ∧ (s.buf b).Asked want
  | .asleep b want => b ∈ q ∧ (s.buf b).Asked want
  | .awake b want => b ∈ q ∧ (s.buf b).Asked want ∨
      b ∉ q ∧ (s.buf b).blockno.toNat < FSSIZE ∧ (s.buf b).Synced want s.device

/-- The buffer that a process is in `iderw` for. -/
def Pc.buf? : Pc → Option (Fin NBUF)
  | .out => none
  | .called b _ | .asleep b _ | .awake b _ => some b

/-- The invariant of the driver, with the requests in the queue. -/
structure Driver.Inv (s : Driver P) (q : List (Fin NBUF)) : Prop where
  chain : Chain s.qnext s.idequeue q
  arrived : s.arrived = s.finished ++ q
  started : s.started = s.finished ++ q.take 1
  dev : ∀ b, (s.buf b).busy ≠ none → (s.buf b).dev < 2
  uniq : ∀ b, (s.buf b).busy ≠ none → s.Unused b (s.buf b).dev (s.buf b).blockno
  own : ∀ p b, (s.proc p).buf? = some b → (s.buf b).busy = some p
  placed : ∀ p, s.Placed q (s.proc p)
  waited : ∀ b ∈ q, ∃ p want, (s.proc p).Waits b want
  serves : s.Serves q

/-! ## Buffers that nobody waits for -/

section
variable {s s' : Driver P} {q : List (Fin NBUF)} {b : Fin NBUF} {p : P}

/-- What holds of a process in `iderw` depends on its buffer: whether it is in the queue, and on its
block once it is not. -/
theorem Driver.Placed.congr {q' : List (Fin NBUF)} (h : s.Placed q pc)
    (hb : ∀ b, pc.buf? = some b → s'.buf b = s.buf b ∧ (b ∈ q' ↔ b ∈ q) ∧
      (b ∉ q → (s.buf b).blockno.toNat < FSSIZE →
        s'.device.block (s.buf b) = s.device.block (s.buf b))) : s'.Placed q' pc := by
  cases pc with
  | out => trivial
  | called b want | asleep b want =>
    obtain ⟨hbuf, hmem, -⟩ := hb b rfl
    simpa only [Placed, hbuf, hmem] using h
  | awake b want =>
    obtain ⟨hbuf, hmem, hblock⟩ := hb b rfl
    simp only [Placed, hbuf, hmem] at h ⊢
    refine h.imp_right fun ⟨hq, hlt, hs⟩ => ⟨hq, hlt, hs.done, ?_, hs.wanted⟩
    rw [hblock hq hlt]
    exact hs.data

/-- A buffer in the queue has a process in `iderw`. -/
theorem Driver.Inv.not_mem (h : s.Inv q) (hb : ∀ p, (s.proc p).buf? ≠ some b) : b ∉ q := by
  intro hmem
  obtain ⟨p, want, hp | hp⟩ := h.waited b hmem
  · exact hb p (by rw [hp]; rfl)
  · exact hb p (by rw [hp]; rfl)

/-- Nobody is in `iderw` for a buffer that is free, or whose holder is not in `iderw`. -/
theorem Driver.Inv.idle (h : s.Inv q)
    (hb : (s.buf b).busy = none ∨ (s.proc p).isOut = true ∧ (s.buf b).busy = some p) (p' : P) :
    (s.proc p').buf? ≠ some b := by
  intro hp'
  have hown := h.own p' b hp'
  rcases hb with hnone | ⟨hout, hsome⟩
  · rw [hnone] at hown
    cases hown
  · obtain rfl : p = p' := Option.some.inj (hsome.symm.trans hown)
    cases hpc : s.proc p with
    | out =>
      rw [hpc] at hp'
      cases hp'
    | called b want | asleep b want | awake b want =>
      rw [hpc] at hout
      cases hout

/-- A change of a buffer that nobody waits for. -/
theorem Driver.Inv.setBuf (h : s.Inv q) {x : Buf P} (hidle : ∀ p, (s.proc p).buf? ≠ some b)
    (hx : x.busy ≠ none → x.dev < 2 ∧ s.Unused b x.dev x.blockno) : (s.setBuf b x).Inv q := by
  have hother {b'} (hne : b' ≠ b) : (s.setBuf b x).buf b' = s.buf b' := update_of_ne hne ..
  have hself : (s.setBuf b x).buf b = x := update_self ..
  have hq := h.not_mem hidle
  refine ⟨h.chain, h.arrived, h.started, fun b' hb' => ?_, fun b' hb' b'' hne hb'' => ?_,
    fun p b' hp => ?_, fun p => (h.placed p).congr fun b' hp => ⟨hother ?_, Iff.rfl, fun _ _ => rfl⟩,
    h.waited, ?_⟩
  · rcases eq_or_ne b' b with rfl | hne
    · rw [hself] at hb' ⊢
      exact (hx hb').1
    · rw [hother hne] at hb' ⊢
      exact h.dev b' hb'
  · rcases eq_or_ne b' b with rfl | hne'
    · rw [hself] at hb' ⊢
      rw [hother hne] at hb'' ⊢
      exact (hx hb').2 b'' hne hb''
    · rw [hother hne'] at hb' ⊢
      rcases eq_or_ne b'' b with rfl | hne''
      · rw [hself] at hb'' ⊢
        exact fun hsame => (hx hb'').2 b' hne' hb' ⟨hsame.1.symm, hsame.2.symm⟩
      · rw [hother hne''] at hb'' ⊢
        exact h.uniq b' hb' b'' hne hb''
  · have hne : b' ≠ b := fun he => hidle p (he ▸ hp)
    rw [hother hne]
    exact h.own p b' hp
  · exact fun he => hidle p (he ▸ hp)
  · cases q with
    | nil => exact h.serves
    | cons b' q =>
      have hne : b' ≠ b := fun he => hq (by simp [he])
      have hserves := h.serves
      simp only [Serves, hother hne] at hserves ⊢
      exact hserves

variable [DecidableEq P]

/-- A process goes on to another place in `iderw`. -/
theorem Driver.Inv.setProc (h : s.Inv q)
    (hown : ∀ b, pc.buf? = some b → (s.buf b).busy = some p) (hplaced : s.Placed q pc)
    (hwaits : ∀ b ∈ q, ∀ want, (s.proc p).Waits b want → pc.Waits b want) :
    (s.setProc p pc).Inv q := by
  have hself : (s.setProc p pc).proc p = pc := update_self ..
  have hother {p'} (hne : p' ≠ p) : (s.setProc p pc).proc p' = s.proc p' :=
    update_of_ne hne ..
  refine ⟨h.chain, h.arrived, h.started, h.dev, h.uniq, fun p' b hp' => ?_, fun p' => ?_,
    fun b hb => ?_, ?_⟩
  · rcases eq_or_ne p' p with rfl | hne
    · rw [hself] at hp'
      exact hown b hp'
    · rw [hother hne] at hp'
      exact h.own p' b hp'
  · rcases eq_or_ne p' p with rfl | hne
    · rw [hself]
      exact hplaced.congr fun _ _ => ⟨rfl, Iff.rfl, fun _ _ => rfl⟩
    · rw [hother hne]
      exact (h.placed p').congr fun _ _ => ⟨rfl, Iff.rfl, fun _ _ => rfl⟩
  · obtain ⟨p', want, hp'⟩ := h.waited b hb
    rcases eq_or_ne p' p with rfl | hne
    · exact ⟨p', want, by rw [hself]; exact hwaits b hb want hp'⟩
    · exact ⟨p', want, by rw [hother hne]; exact hp'⟩
  · cases q with
    | nil | cons b q => exact h.serves

end

/-! ## A request arrives -/

section
variable {s : Driver P} {q : List (Fin NBUF)} {b : Fin NBUF}

/-- The machine may panic, but no loop of the driver goes on for ever. -/
abbrev Fine : Stop → Prop := fun e => e ≠ .diverge

/-- The device with the command for a buffer. -/
def Driver.begin (s : Driver P) (b : Fin NBUF) : Driver P :=
  { s with device := { s.device with command := some (s.buf b).command } }.record (.start b)

/-- `idewait` returns at once when the device is idle. -/
theorem sat_idewait {checkerr : Bool} {Q : Int → Driver P → Prop}
    (hidle : s.device.command = none) : Sat E (idewait checkerr) s Q ↔
      Q (if checkerr ∧ s.device.status &&& errorBits ≠ 0 then -1 else 0) s := by
  rw [idewait, sat_get_bind]
  dsimp only
  rw [hidle]
  dsimp only
  split
  · rfl
  · rfl

/-- `idestart` on an idle device. -/
theorem idestart_spec (hidle : s.device.command = none)
    (hE : FSSIZE ≤ (s.buf b).blockno.toNat → E (.panic "incorrect blockno")) :
    Sat E (idestart (some b)) s fun _ s' =>
      (s.buf b).blockno.toNat < FSSIZE ∧ s' = s.begin b := by
  rw [idestart, sat_get_bind, sat_panicIf_bind]
  refine ⟨hE, fun hlt => ?_⟩
  rw [sat_bind, sat_idewait hidle]
  exact ⟨Nat.lt_of_not_le hlt, rfl⟩

theorem length_le_of_chain {next : Fin NBUF → Option (Fin NBUF)} {h : Option (Fin NBUF)}
    (hc : Chain next h q) : q.length ≤ NBUF := by
  have := hc.nodup.length_le_card
  rwa [Fintype.card_fin] at this

/-- Appending to the queue, as the loop of `iderw` does it at the last link. -/
theorem chain_append {next : Fin NBUF → Option (Fin NBUF)} {h : Option (Fin NBUF)}
    (hc : Chain next h (q ++ [last])) (hb : b ∉ q ++ [last]) :
    Chain (update (update next b none) last (some b)) h (q ++ [last] ++ [b]) := by
  have hnodup := hc.nodup
  have hne : b ≠ last := fun he => hb (by simp [he])
  rw [append_assoc]
  refine hc.append ?_ fun z hz => ?_
  · rw [update_self]
    refine ⟨rfl, ?_⟩
    rw [update_of_ne hne, update_self]
    rfl
  · have hzl : z ≠ last := by
      rintro rfl
      exact (nodup_append.1 hnodup).2.2 z hz z (by simp) rfl
    have hzb : z ≠ b := by
      rintro rfl
      exact hb (by simp [hz])
    rw [update_of_ne hzl, update_of_ne hzb]

theorem enqueue_first (hq : s.idequeue = none) : Sat E (enqueue b) s fun _ s' =>
      s' = { s.setNext b none with idequeue := some b } := by
  rw [enqueue, sat_modify_bind, sat_get_bind, show (s.setNext b none).idequeue = none from hq]
  rfl

/-- A buffer comes to the end of a queue that is not empty. -/
theorem enqueue_next (hc : Chain s.qnext s.idequeue (q ++ [last])) (hb : b ∉ q ++ [last]) :
    Sat Fine (enqueue b) s fun _ s' =>
      s' = (s.setNext b none).setNext last (some b) := by
  have hlen := length_le_of_chain hc
  have hc' : Chain (s.setNext b none).qnext s.idequeue (q ++ [last]) :=
    hc.congr fun z hz => update_of_ne (ne_of_mem_of_not_mem hz hb) ..
  obtain ⟨h, t, hq⟩ : ∃ h t, q ++ [last] = h :: t := exists_cons_of_ne_nil (by simp)
  have hlast : lastNode (s.setNext b none).qnext (NBUF + 1) h = some last := by
    rw [hq] at hc' hlen
    rw [lastNode_chain ⟨rfl, hc'.2⟩ (by simp only [length_cons] at hlen; omega)]
    simp only [← hq, getLast_append_singleton]
  rw [hq] at hc
  rw [enqueue, sat_modify_bind, sat_get_bind,
    show (s.setNext b none).idequeue = some h from hc.1]
  dsimp only
  rw [hlast]
  rfl

/-- The first request is started at once. -/
theorem iderwAppend_first (hq : s.idequeue = none) (hidle : s.device.command = none)
    (hE : FSSIZE ≤ (s.buf b).blockno.toNat → E (.panic "incorrect blockno")) :
    Sat E (iderwAppend b) s fun _ s' => (s.buf b).blockno.toNat < FSSIZE ∧
      s' = ({ s.setNext b none with idequeue := some b }.record (.arrive b)).begin b := by
  rw [iderwAppend]
  refine (enqueue_first hq).bind fun _ s' hs' => ?_
  subst hs'
  rw [sat_modify_bind, sat_get_bind]
  exact Sat.ite (fun _ => idestart_spec hidle hE) fun hne => absurd rfl hne

/-- Another request is appended to the queue. -/
theorem iderwAppend_next (hc : Chain s.qnext s.idequeue (q ++ [last])) (hb : b ∉ q ++ [last]) :
    Sat Fine (iderwAppend b) s fun _ s' =>
      s' = ((s.setNext b none).setNext last (some b)).record (.arrive b) := by
  have hhead : s.idequeue ≠ some b := by
    rw [hc.head_eq]
    exact fun he => hb (mem_of_mem_head? he)
  rw [iderwAppend]
  refine (enqueue_next hc hb).bind fun _ s' hs' => ?_
  subst hs'
  rw [sat_modify_bind, sat_get_bind]
  exact Sat.ite (fun he => absurd he hhead) fun _ => rfl

end

section
variable [DecidableEq P] {s s' : Driver P} {q : List (Fin NBUF)} {b : Fin NBUF} {p : P}
  {want : Option Block}

/-- A request that has been appended to the queue. -/
theorem Driver.Inv.arrive (h : s.Inv q) (hp : s.proc p = .called b want) (hbuf : s'.buf = s.buf)
    (hproc : s'.proc = update s.proc p (.asleep b want))
    (hchain : Chain s'.qnext s'.idequeue (q ++ [b])) (harrived : s'.arrived = s.arrived ++ [b])
    (hfinished : s'.finished = s.finished)
    (hstarted : s'.started = s.finished ++ (q ++ [b]).take 1)
    (hdisk : s'.device.disk = s.device.disk) (hserves : s'.Serves (q ++ [b])) :
    s'.Inv (q ++ [b]) := by
  have hbusy : (s.buf b).busy = some p := h.own p b (by rw [hp]; rfl)
  obtain ⟨hq, hasked⟩ : b ∉ q ∧ (s.buf b).Asked want := by
    have hplaced := h.placed p
    rwa [hp] at hplaced
  have hself : s'.proc p = .asleep b want := by rw [hproc, update_self]
  have hother {p'} (hne : p' ≠ p) : s'.proc p' = s.proc p' := by
    rw [hproc, update_of_ne hne]
  refine ⟨hchain, ?_, ?_, ?_, ?_, fun p' b' hp' => ?_, fun p' => ?_, fun b' hb' => ?_, hserves⟩
  · rw [harrived, hfinished, h.arrived, append_assoc]
  · rw [hstarted, hfinished]
  · rw [hbuf]
    exact h.dev
  · unfold Driver.Unused
    rw [hbuf]
    exact h.uniq
  · rw [hbuf]
    rcases eq_or_ne p' p with rfl | hne
    · rw [hself] at hp'
      obtain rfl : b = b' := Option.some.inj hp'
      exact hbusy
    · rw [hother hne] at hp'
      exact h.own p' b' hp'
  · rcases eq_or_ne p' p with rfl | hne
    · rw [hself]
      exact ⟨by simp, by rw [hbuf]; exact hasked⟩
    · rw [hother hne]
      refine (h.placed p').congr fun b' hp' => ⟨congrFun hbuf b', ?_, fun _ _ => ?_⟩
      · have hne' : b' ≠ b := by
          rintro rfl
          exact hne (Option.some.inj ((h.own p' b' hp').symm.trans hbusy))
        simp [hne']
      · rw [Device.block, Device.block, hdisk]
  · rw [mem_append, mem_singleton] at hb'
    rcases hb' with hb' | rfl
    · obtain ⟨p', want', hp'⟩ := h.waited b' hb'
      have hne : p' ≠ p := by
        rintro rfl
        rw [hp] at hp'
        rcases hp' with hp' | hp' <;> cases hp'
      exact ⟨p', want', by rw [hother hne]; exact hp'⟩
    · exact ⟨p, want, .inl hself⟩

/-- A process in `iderw` gets the lock for the first time. -/
theorem Driver.Inv.step_append (h : s.Inv q) (hp : s.proc p = .called b want) :
    Sat Fine (iderwAppend b >>= fun _ => iderwLoop p b want) s
      fun _ s' => s'.Inv (q ++ [b]) ∧ s'.proc = update s.proc p (.asleep b want) := by
  obtain ⟨hq, hasked⟩ : b ∉ q ∧ (s.buf b).Asked want := by
    have hplaced := h.placed p
    rwa [hp] at hplaced
  have hproc : update s.proc p (if (s.buf b).done then .out else .asleep b want) =
      update s.proc p (.asleep b want) := by
    rw [if_neg (Bool.eq_false_iff.1 hasked.1)]
  rcases q.eq_nil_or_concat with rfl | ⟨q, last, rfl⟩
  · refine (iderwAppend_first h.chain h.serves.1 fun _ => nofun).bind fun _ s1 hs1 => ?_
    obtain ⟨hlt, rfl⟩ := hs1
    rw [iderwLoop, sat_modify]
    refine ⟨?_, hproc⟩
    refine h.arrive hp rfl hproc ⟨rfl, update_self ..⟩ ?_ ?_ ?_ rfl ⟨hlt, .busy rfl h.serves.2⟩
    · simp [Driver.arrived, Driver.setProc, begin, record, setNext]
    · simp [Driver.finished, Driver.setProc, begin, record, setNext]
    · have hnone : s.started = s.finished := by simpa using h.started
      change _ = s.finished ++ [b]
      rw [← hnone]
      simp [Driver.started, Driver.setProc, begin, record, setNext]
  · rw [concat_eq_append] at h hq ⊢
    refine (iderwAppend_next h.chain hq).bind fun _ s1 hs1 => ?_
    subst hs1
    rw [iderwLoop, sat_modify]
    refine ⟨?_, hproc⟩
    refine h.arrive hp rfl hproc (chain_append h.chain hq) ?_ ?_ ?_ rfl ?_
    · simp [Driver.arrived, Driver.setProc, record, setNext]
    · simp [Driver.finished, Driver.setProc, record, setNext]
    · have htake : (q ++ [last] ++ [b]).take 1 = (q ++ [last]).take 1 :=
        take_append_of_le_length (by simp)
      rw [htake, ← h.started]
      simp [Driver.started, Driver.setProc, record, setNext]
    · have hserves := h.serves
      cases q with
      | nil | cons b' q => exact hserves

end

/-! ## The device -/

section
variable {x y : Buf P} {d : Device} {data : Block}

theorem dev_eq_of_drive {a b : UInt32} (ha : a < 2) (hb : b < 2) (h : (a != 0) = (b != 0)) :
    a = b := by
  have ha' : a.toNat < 2 := ha
  have hb' : b.toNat < 2 := hb
  rw [Bool.eq_iff_iff, bne_iff_ne, bne_iff_ne, not_iff_not, ← UInt32.toNat_inj,
    ← UInt32.toNat_inj, UInt32.toNat_zero] at h
  rw [← UInt32.toNat_inj]
  omega

/-- A write changes the block of its buffer. -/
theorem Device.block_write (hd : x.dev < 2) (hb : x.blockno.toNat < FSSIZE) :
    (d.write x.regs data).block x = data := by
  rw [block, write, Buf.regs_drive hd hb, Buf.regs_sector hd hb]
  dsimp only
  rw [update_self, update_self]

/-- A write leaves the blocks of other buffers alone. -/
theorem Device.block_write_of_ne (hd : x.dev < 2) (hb : x.blockno.toNat < FSSIZE) (hd' : y.dev < 2)
    (hne : ¬ (x.dev = y.dev ∧ x.blockno = y.blockno)) :
    (d.write x.regs data).block y = d.block y := by
  rw [block, write, Buf.regs_drive hd hb, Buf.regs_sector hd hb, block]
  dsimp only
  rcases eq_or_ne (y.dev != 0) (x.dev != 0) with he | hne'
  · rw [he, update_self, update_of_ne]
    intro hblock
    exact hne ⟨dev_eq_of_drive hd hd' he.symm, UInt32.toNat_inj.1 hblock.symm⟩
  · rw [update_of_ne hne']

end

section
variable {s : Driver P} {q : List (Fin NBUF)} {b : Fin NBUF} {p : P}

/-- A change of the device that concerns at most the block of the first request. -/
theorem Driver.Inv.setDevice (h : s.Inv (b :: q)) {d : Device}
    (hblock : ∀ b', b' ≠ b → (s.buf b').busy ≠ none → d.block (s.buf b') =
      s.device.block (s.buf b'))
    (hengaged : d.Engaged (s.buf b)) : { s with device := d }.Inv (b :: q) := by
  refine ⟨h.chain, h.arrived, h.started, h.dev, h.uniq, h.own, fun p => ?_, h.waited, h.serves.1,
    hengaged⟩
  refine (h.placed p).congr fun b' hp => ⟨rfl, Iff.rfl, fun hq _ => hblock b' ?_ ?_⟩
  · rintro rfl
    exact hq (by simp)
  · rw [h.own p b' hp]
    exact Option.some_ne_none p

theorem Driver.Inv.busy_of_mem (h : s.Inv q) (hb : b ∈ q) : (s.buf b).busy ≠ none := by
  obtain ⟨p, want, hp⟩ := h.waited b hb
  have hbuf : (s.proc p).buf? = some b := by
    rcases hp with hp | hp <;> rw [hp] <;> rfl
  rw [h.own p b hbuf]
  exact Option.some_ne_none p

/-- The device finishes its command without an error. -/
theorem Driver.Inv.step_complete (h : s.Inv q) {c : Command} {status : UInt8} {junk : Block}
    (hc : s.device.command = some c) (hok : status &&& errorBits = 0) :
    { s with device := s.device.complete status junk c }.Inv q := by
  cases q with
  | nil =>
    rw [h.serves.1] at hc
    cases hc
  | cons b q =>
    obtain ⟨hlt, hengaged⟩ := h.serves
    have hbusy : (s.buf b).busy ≠ none := h.busy_of_mem (by simp)
    have hdev := h.dev b hbusy
    have hcommand : c = (s.buf b).command := by
      cases hengaged with
      | busy hc' => exact Option.some.inj (hc.symm.trans hc')
      | read hc' | written hc' =>
        rw [hc'] at hc
        cases hc
    subst hcommand
    rw [Buf.command]
    split
    · next hdirty =>
      rw [Device.complete, if_pos hok]
      refine h.setDevice (fun b' hne hb' => ?_) (.written rfl rfl hdirty ?_)
      · refine Device.block_write_of_ne hdev hlt (h.dev b' hb') fun hsame => ?_
        exact h.uniq b hbusy b' hne hb' ⟨hsame.1.symm, hsame.2.symm⟩
      · exact (Device.block_write hdev hlt).symm
    · next hclean =>
      rw [Device.complete, if_pos hok]
      refine h.setDevice (fun b' _ _ => rfl) (.read rfl rfl hok (Bool.eq_false_iff.2 hclean) ?_)
      rw [Buf.regs_drive hdev hlt, Buf.regs_sector hdev hlt]
      rfl

/-- What `ideintr` reads into the buffer: what the device gives, if it reports no error. -/
theorem readData_spec (hidle : s.device.command = none) :
    Sat E (readData b) s fun _ s' => s' = s.setBuf b { s.buf b with
      data := if (s.buf b).dirty = false ∧ s.device.status &&& errorBits = 0 then s.device.port
        else (s.buf b).data } := by
  rw [readData, sat_get_bind]
  refine Sat.ite (fun hclean => ?_) fun hdirty => ?_
  · rw [sat_bind, sat_idewait hidle]
    by_cases hok : s.device.status &&& errorBits = 0
    · have hstatus : ¬ (true = true ∧ s.device.status &&& errorBits ≠ 0) := fun hc => hc.2 hok
      rw [if_neg hstatus, if_pos le_rfl, insl, sat_modify, if_pos ⟨hclean, hok⟩]
    · have hstatus : true = true ∧ s.device.status &&& errorBits ≠ 0 := ⟨rfl, hok⟩
      have hneg : ¬ (0 : Int) ≤ -1 := by decide
      rw [if_pos hstatus, if_neg hneg, sat_pure, if_neg fun hc => hok hc.2]
      simp [Driver.setBuf]
  · rw [sat_pure, if_neg fun hc => hdirty hc.1]
    simp [Driver.setBuf]

/-- The end of `ideintr` starts the next buffer of the queue, if there is one. -/
theorem startNext_spec (hidle : s.device.command = none) :
    Sat Fine startNext s fun _ s' => s.idequeue = none ∧ s' = s ∨
      ∃ b, s.idequeue = some b ∧ (s.buf b).blockno.toNat < FSSIZE ∧ s' = s.begin b := by
  rw [startNext, sat_get_bind]
  refine Sat.ite (fun hne => ?_) fun hnone => ?_
  · obtain ⟨b, hb⟩ := Option.ne_none_iff_exists'.1 hne
    rw [hb]
    exact (idestart_spec hidle fun _ => nofun).weaken fun _ s' hs' => .inr ⟨b, rfl, hs'⟩
  · exact .inl ⟨not_not.1 hnone, rfl⟩

/-- The state after `ideintr` has finished the first request. -/
def Driver.finish (s : Driver P) (b : Fin NBUF) : Driver P :=
  { s with
    buf := update s.buf b { s.buf b with
      data := if (s.buf b).dirty then (s.buf b).data else s.device.port
      valid := true, dirty := false }
    idequeue := s.qnext b
    proc := fun p => (s.proc p).wakeup b }.record (.finish b)

/-- `ideintr` takes the first buffer off the queue and starts the next one, if there is one. -/
theorem ideintr_spec (hq : s.idequeue = some b) (hidle : s.device.command = none)
    (hok : (s.buf b).dirty = false → s.device.status &&& errorBits = 0) :
    Sat Fine ideintr s fun _ s' =>
      (s.finish b).idequeue = none ∧ s' = s.finish b ∨
      ∃ b', (s.finish b).idequeue = some b' ∧ ((s.finish b).buf b').blockno.toNat < FSSIZE ∧
        s' = (s.finish b).begin b' := by
  rw [ideintr, sat_get_bind, hq]
  rw [sat_modify_bind]
  refine (readData_spec (s := { s with idequeue := s.qnext b }) hidle).bind fun _ s1 hs1 => ?_
  rw [sat_modify_bind, wakeup, sat_modify_bind]
  have hfinish : { (s1.setBuf b { s1.buf b with valid := true, dirty := false }).record
      (.finish b) with proc := fun p => (s1.proc p).wakeup b } = s.finish b := by
    rw [hs1]
    cases hd : (s.buf b).dirty with
    | true => simp [Driver.finish, Driver.setBuf, Driver.record, hd]
    | false => simp [Driver.finish, Driver.setBuf, Driver.record, hd, hok hd]
  rw [← hfinish]
  refine startNext_spec ?_
  rw [hs1]
  exact hidle

theorem Pc.buf?_wakeup (pc : Pc) : (pc.wakeup b).buf? = pc.buf? := by
  cases pc with
  | out | called | awake => rfl
  | asleep b' want =>
    rw [wakeup]
    split <;> rfl

theorem Pc.wakeup_of_ne (h : pc.buf? ≠ some b) : pc.wakeup b = pc := by
  cases pc with
  | out | called | awake => rfl
  | asleep b' want => exact if_neg fun he => h (congrArg some he)

/-- A wakeup for a buffer, as a process that waits for it sees it. -/
theorem Pc.Waits.wakeup {want : Option Block} (h : pc.Waits b want) :
    pc.wakeup b = .awake b want := by
  rcases h with rfl | rfl
  · exact if_pos rfl
  · rfl

variable {s' : Driver P}

/-- The first request is finished: its buffer is in step with the disk, its process is awake, and the
device goes on to the next request. -/
theorem Driver.Inv.finish (h : s.Inv (b :: q)) {data : Block}
    (hdata : data = s.device.block (s.buf b))
    (hwanted : ∀ want, (s.buf b).Asked want → ∀ w ∈ want, data = w)
    (hbuf : s'.buf = update s.buf b { s.buf b with data, valid := true, dirty := false })
    (hproc : ∀ p, s'.proc p = (s.proc p).wakeup b) (hchain : Chain s'.qnext s'.idequeue q)
    (harrived : s'.arrived = s.arrived) (hfinished : s'.finished = s.finished ++ [b])
    (hstarted : s'.started = s.started ++ q.take 1) (hdisk : s'.device.disk = s.device.disk)
    (hserves : s'.Serves q) : s'.Inv q := by
  have hself : s'.buf b = { s.buf b with data, valid := true, dirty := false } := by
    rw [hbuf, update_self]
  have hother {b'} (hne : b' ≠ b) : s'.buf b' = s.buf b' := by rw [hbuf, update_of_ne hne]
  have hsame (b') : (s'.buf b').busy = (s.buf b').busy ∧ (s'.buf b').dev = (s.buf b').dev ∧
      (s'.buf b').blockno = (s.buf b').blockno := by
    rcases eq_or_ne b' b with rfl | hne
    · rw [hself]
      exact ⟨rfl, rfl, rfl⟩
    · rw [hother hne]
      exact ⟨rfl, rfl, rfl⟩
  have hblock (x : Buf P) : s'.device.block x = s.device.block x := by
    rw [Device.block, Device.block, hdisk]
  have hnodup := h.chain.nodup
  rw [nodup_cons] at hnodup
  refine ⟨hchain, ?_, ?_, fun b' hb' => ?_, fun b' hb' b'' hne hb'' => ?_, fun p b' hp => ?_,
    fun p => ?_, fun b' hb' => ?_, hserves⟩
  · rw [harrived, hfinished, h.arrived, append_assoc]
    rfl
  · rw [hstarted, hfinished, h.started]
    rfl
  · rw [(hsame b').1] at hb'
    rw [(hsame b').2.1]
    exact h.dev b' hb'
  · rw [(hsame _).1] at hb' hb''
    rw [(hsame b').2.1, (hsame b').2.2, (hsame b'').2.1, (hsame b'').2.2]
    exact h.uniq b' hb' b'' hne hb''
  · rw [hproc, Pc.buf?_wakeup] at hp
    rw [(hsame b').1]
    exact h.own p b' hp
  · rw [hproc]
    have hplaced := h.placed p
    rcases eq_or_ne (s.proc p).buf? (some b) with hp | hp
    · -- the process of the request is asleep or was woken up before
      obtain ⟨want, hwaits, hasked⟩ : ∃ want, (s.proc p).Waits b want ∧ (s.buf b).Asked want := by
        cases hpc : s.proc p with
        | out =>
          rw [hpc] at hp
          cases hp
        | called b' want =>
          rw [hpc] at hp hplaced
          cases hp
          exact absurd (by simp) hplaced.1
        | asleep b' want =>
          rw [hpc] at hp hplaced
          cases hp
          exact ⟨want, .inl rfl, hplaced.2⟩
        | awake b' want =>
          rw [hpc] at hp hplaced
          cases hp
          refine ⟨want, .inr rfl, ?_⟩
          rcases hplaced with hplaced | hplaced
          · exact hplaced.2
          · exact absurd (by simp) hplaced.1
      rw [hwaits.wakeup]
      refine .inr ⟨hnodup.1, ?_, ?_, ?_, ?_⟩
      · rw [(hsame b).2.2]
        exact h.serves.1
      · rw [hself]
        rfl
      · rw [hblock, hself]
        exact hdata
      · rw [hself]
        exact hwanted want hasked
    · rw [Pc.wakeup_of_ne hp]
      refine hplaced.congr fun b' hp' => ?_
      have hne : b' ≠ b := fun he => hp (he ▸ hp')
      exact ⟨hother hne, by simp [hne], fun _ _ => hblock _⟩
  · obtain ⟨p, want, hp⟩ := h.waited b' (by simp [hb'])
    refine ⟨p, want, ?_⟩
    have hne : b' ≠ b := fun he => hnodup.1 (he ▸ hb')
    rw [hproc, Pc.wakeup_of_ne]
    · exact hp
    · rcases hp with hp | hp <;> rw [hp] <;> exact fun he => hne (Option.some.inj he)

/-- `ideintr`, when the device has raised its interrupt or there is no request. -/
theorem Driver.Inv.step_ideintr (h : s.Inv q)
    (hirq : s.device.irq = true ∨ s.idequeue = none) :
    Sat Fine ideintr { s with device := { s.device with irq := false } } fun _ s' =>
      (∃ q', s'.Inv q') ∧ ∀ p, (s'.proc p).buf? = (s.proc p).buf? := by
  cases q with
  | nil =>
    rw [ideintr, sat_get_bind, show s.idequeue = none from h.chain]
    exact ⟨⟨[], rfl, h.arrived, h.started, h.dev, h.uniq, h.own,
      fun p => (h.placed p).congr fun _ _ => ⟨rfl, Iff.rfl, fun _ _ => rfl⟩, h.waited, h.serves.1, rfl⟩,
      fun _ => rfl⟩
  | cons b q =>
    have hq : s.idequeue = some b := h.chain.1
    have hirq' : s.device.irq = true := hirq.resolve_right (by simp [hq])
    obtain ⟨hlt, hengaged⟩ := h.serves
    have hdone : s.device.command = none ∧
        ((s.buf b).dirty = false → s.device.status &&& errorBits = 0) ∧
        (if (s.buf b).dirty then (s.buf b).data else s.device.port) =
          s.device.block (s.buf b) := by
      cases hengaged with
      | busy hc hirq =>
        rw [hirq'] at hirq
        cases hirq
      | read hc _ hok hclean hdata => exact ⟨hc, fun _ => hok, by rw [hclean]; exact hdata⟩
      | written hc _ hdirty hdata =>
        refine ⟨hc, fun hclean => ?_, by rw [if_pos hdirty]; exact hdata⟩
        rw [hdirty] at hclean
        cases hclean
    obtain ⟨hidle, hok, hdata⟩ := hdone
    have hwanted (want) (hasked : (s.buf b).Asked want) (w) (hw : w ∈ want) :
        (if (s.buf b).dirty then (s.buf b).data else s.device.port) = w := by
      rw [hasked.2] at hw
      split at hw
      · next hdirty =>
        rw [if_pos hdirty]
        exact Option.some.inj hw
      · cases hw
    refine (ideintr_spec (s := { s with device := { s.device with irq := false } }) hq hidle
      hok).weaken fun _ s' hs' => ?_
    have hnext : s.qnext b = q.head? := h.chain.2.head_eq
    rcases hs' with ⟨hnone, rfl⟩ | ⟨b', hb', hlt', rfl⟩
    · obtain rfl : q = [] := head?_eq_none_iff.1 (hnext.symm.trans hnone)
      refine ⟨⟨[], ?_⟩, fun p => Pc.buf?_wakeup _⟩
      refine h.finish hdata hwanted rfl (fun _ => rfl) h.chain.2 ?_ ?_ ?_ rfl ⟨hidle, rfl⟩
      · simp [Driver.arrived, Driver.finish, record]
      · simp [Driver.finished, Driver.finish, record]
      · simp [Driver.started, Driver.finish, record]
    · obtain ⟨rest, rfl⟩ := head?_eq_some_iff.1 (hnext.symm.trans hb')
      refine ⟨⟨b' :: rest, ?_⟩, fun p => Pc.buf?_wakeup _⟩
      refine h.finish hdata hwanted rfl (fun _ => rfl) h.chain.2 ?_ ?_ ?_ rfl
        ⟨hlt', .busy rfl rfl⟩
      · simp [Driver.arrived, Driver.finish, begin, record]
      · simp [Driver.finished, Driver.finish, begin, record]
      · simp [Driver.started, Driver.finish, begin, record]

end

/-! ## Runs -/

theorem Driver.start_inv (disk : Bool → Nat → Block) (havedisk1 : Bool) :
    (Driver.start disk havedisk1 : Driver P).Inv [] where
  chain := rfl
  arrived := rfl
  started := rfl
  dev _ h := absurd rfl h
  uniq _ h := absurd rfl h
  own _ _ h := nomatch h
  placed _ := trivial
  waited _ h := nomatch h
  serves := ⟨rfl, rfl⟩

section
variable [DecidableEq P] {s s' : Driver P} {q : List (Fin NBUF)}

theorem Pc.eq_out (h : pc.isOut = true) : pc = .out := by
  cases pc with
  | out => rfl
  | called | asleep | awake => cases h

/-- A process in the loop of `iderw` gets the lock. -/
theorem Driver.Inv.step_awake {p : P} {b : Fin NBUF} {want : Option Block} (h : s.Inv q)
    (hp : s.proc p = .awake b want) :
    (s.setProc p (if (s.buf b).done then .out else .asleep b want)).Inv q := by
  have hplaced := h.placed p
  rw [hp] at hplaced
  have hbusy : (s.buf b).busy = some p := h.own p b (by rw [hp]; rfl)
  rcases hplaced with ⟨hq, hasked⟩ | ⟨hq, -, hsynced⟩
  · rw [if_neg (Bool.eq_false_iff.1 hasked.1)]
    refine h.setProc (fun b' hb' => ?_) ⟨hq, hasked⟩ fun b' _ want' hw => ?_
    · cases hb'
      exact hbusy
    · rw [hp] at hw
      rcases hw with hw | hw
      · cases hw
      · cases hw
        exact .inl rfl
  · rw [if_pos hsynced.done]
    refine h.setProc (fun b' hb' => nomatch hb') trivial fun b' hb' want' hw => ?_
    rw [hp] at hw
    rcases hw with hw | hw
    · cases hw
    · cases hw
      exact absurd hb' hq

/-- Every step keeps the invariant, as long as the device reports no error, and no process gets out of
`iderw` but by a step of its own. -/
theorem Driver.Inv.step (h : s.Inv q) {a : Act P} (ha : a.NoError) :
    Sat Fine (Driver.step a) s fun _ s' => (∃ q', s'.Inv q') ∧
      ∀ p b, a ≠ .acquire p → (s.proc p).buf? = some b → (s'.proc p).buf? = some b := by
  have hsame : ∀ p b, a ≠ .acquire p → (s.proc p).buf? = some b → (s.proc p).buf? = some b :=
    fun _ _ _ hp => hp
  have hother {p' pc p b} (hne : p ≠ p') (hp : (s.proc p).buf? = some b) :
      (update s.proc p' pc p).buf? = some b := by
    rwa [update_of_ne hne]
  cases a with
  | bget p b dev blockno =>
    rw [Driver.step, sat_get_bind, sat_require_bind]
    refine ⟨fun _ => nofun, fun ⟨_, hdev, hfree, hunused⟩ => ?_⟩
    rw [sat_require_bind]
    refine ⟨fun _ => nofun,
      fun _ => ⟨⟨q, h.setBuf (h.idle (p := p) (.inl hfree)) fun _ => ?_⟩, hsame⟩⟩
    rw [Buf.take]
    split
    · next hsame =>
      rw [hsame.1, hsame.2]
      exact ⟨hdev, hunused⟩
    · exact ⟨hdev, hunused⟩
  | edit p b data dirty =>
    rw [Driver.step, sat_get_bind, sat_require_bind]
    refine ⟨fun _ => nofun, fun ⟨hout, hbusy⟩ => ⟨⟨q, ?_⟩, hsame⟩⟩
    exact h.setBuf (h.idle (.inr ⟨hout, hbusy⟩)) fun hx => ⟨h.dev b hx, h.uniq b hx⟩
  | brelse p b =>
    rw [Driver.step, sat_get_bind, sat_require_bind]
    refine ⟨fun _ => nofun, fun ⟨hout, hbusy⟩ => ⟨⟨q, ?_⟩, hsame⟩⟩
    exact h.setBuf (h.idle (.inr ⟨hout, hbusy⟩)) fun hx => absurd rfl hx
  | iderw p b =>
    rw [Driver.step, sat_get_bind, sat_require_bind]
    refine ⟨fun _ => nofun, fun ⟨hout, hbusy⟩ => ?_⟩
    rw [iderwTests, sat_bind, sat_get_bind, sat_panicIf_bind]
    refine ⟨fun _ => nofun, fun _ => ?_⟩
    rw [sat_panicIf_bind]
    refine ⟨fun _ => nofun, fun htodo => ?_⟩
    rw [sat_panicIf]
    have hidle := h.idle (.inr ⟨hout, hbusy⟩)
    refine ⟨fun _ => nofun, fun _ => ⟨⟨q, ?_⟩, fun p' b' _ hp' => hother ?_ hp'⟩⟩
    · refine h.setProc (fun b' hb' => ?_) ⟨h.not_mem hidle, Bool.eq_false_iff.2 htodo, rfl⟩
        fun b' _ want hw => ?_
      · cases hb'
        exact hbusy
      · rw [Pc.eq_out hout] at hw
        rcases hw with hw | hw <;> cases hw
    · rintro rfl
      rw [Pc.eq_out hout] at hp'
      cases hp'
  | acquire p =>
    have hne {p'} (ha : Act.acquire p ≠ .acquire p') : p' ≠ p := fun he => ha (he ▸ rfl)
    rw [Driver.step, sat_get_bind]
    cases hp : s.proc p with
    | out | asleep => exact nofun
    | called b want =>
      refine (h.step_append hp).weaken fun _ s' hs' => ⟨⟨_, hs'.1⟩, fun p' b' ha' hp' => ?_⟩
      rw [hs'.2]
      exact hother (hne ha') hp'
    | awake b want => exact ⟨⟨q, h.step_awake hp⟩, fun p' b' ha' => hother (hne ha')⟩
  | wake p =>
    rw [Driver.step, sat_get_bind]
    cases hp : s.proc p with
    | out | called | awake => exact nofun
    | asleep b want =>
      have hplaced := h.placed p
      rw [hp] at hplaced
      refine ⟨⟨q, h.setProc (fun b' hb' => ?_) (.inl hplaced) fun b' _ want' hw => ?_⟩,
        fun p' b' _ hp' => ?_⟩
      · cases hb'
        exact h.own p b (by rw [hp]; rfl)
      · rw [hp] at hw
        rcases hw with hw | hw
        · cases hw
          exact .inr rfl
        · cases hw
      · rcases eq_or_ne p' p with rfl | hne
        · rw [hp] at hp'
          rw [show (s.setProc p' (.awake b want)).proc p' = .awake b want from update_self ..]
          exact hp'
        · exact hother hne hp'
  | complete status junk =>
    rw [Driver.step, sat_get_bind]
    cases hc : s.device.command with
    | none => exact nofun
    | some c => exact ⟨⟨q, h.step_complete hc ha⟩, hsame⟩
  | ideintr =>
    rw [Driver.step, sat_get_bind, sat_require_bind]
    refine ⟨fun _ => nofun, fun hirq => (h.step_ideintr hirq).weaken fun _ s' hs' => ?_⟩
    exact ⟨hs'.1, fun p b _ hp => (hs'.2 p).trans hp⟩

/-- What holds in every state of a run without device errors. -/
theorem Driver.inv_of_run {disk : Bool → Nat → Block} {havedisk1 : Bool} {as : List (Act P)}
    (has : ∀ a ∈ as, a.NoError) (hrun : Driver.run as (.start disk havedisk1) = .ok ((), s)) :
    ∃ q, s.Inv q := by
  have hall : Sat Fine (Driver.run as) (.start disk havedisk1) fun _ s => ∃ q, s.Inv q := by
    refine Sat.forM (I := fun _ (s : Driver P) => ∃ q, s.Inv q) (fun pre a post s hl hs => ?_)
      ⟨[], start_inv disk havedisk1⟩
    obtain ⟨q, hq⟩ := hs
    exact (hq.step (has a (by simp [hl]))).weaken fun _ _ hs' => hs'.1
  exact hall.of_ok hrun

end

end TronBoss.Ide
