import TronBoss.Fs.Kernel
import TronBoss.Mkfs.Mkfs

/-!
# User and group ids

The `uid` and `gid` of the processes next to the file system: `sys_setuid` and `sys_setgid` with
their range checks, `fork`, `chmod`, `chown` and `chgrp`, and `exec`, which takes the `uid` of the
process from the owner of a file with the `setuid` bit. What `exec` does with memory is left out:
whether the image could be loaded is an argument.
-/

namespace TronBoss.Fs

open Lib Function List

/-- The kernel with the ids of its processes. -/
structure Users where
  k : Kernel State
  cred : Fin NPROC → Cred

/-- A routine that works on files, run next to the ids. -/
def onKernel {α : Type} (m : SysM State α) : Routine Users α := zoom Users.k (fun s k => { s with k }) m

/-- An assignment to the ids of a process. -/
def modifyCred (p : Fin NPROC) (f : Cred → Cred) : Routine Users Unit :=
  modify fun s => { s with cred := update s.cred p (f (s.cred p)) }

/-! ## Ids -/

/-- The largest id that `sys_setuid` and `sys_setgid` take. -/
def MAXID : Nat := 32767

/-- The range check of `sys_setuid` and `sys_setgid`, and what they do with an id that passes. -/
def setId (p : Fin NPROC) (n : Int32) (f : UInt32 → Cred → Cred) : Routine Users Int :=
  if n < 0 ∨ n > 32767 then return -1
  else do
    modifyCred p (f n.toUInt32)
    return 0

/-- `sys_setuid`. The result of `argint` is not looked at: `n` is what the variable then holds. -/
def sysSetuid (p : Fin NPROC) (n : Int32) : Routine Users Int :=
  setId p n fun id c => { c with uid := id }

def sysSetgid (p : Fin NPROC) (n : Int32) : Routine Users Int :=
  setId p n fun id c => { c with gid := id }

/-- `fork`, of the files and the ids. -/
def forkUser (p np : Fin NPROC) : Routine Users Int := do
  let pid ← onKernel (Fs.fork p np)
  let c := (← get).cred p
  modifyCred np fun _ => c
  return pid

/-! ## Running a file -/

/-- `st->mode.flags.setuid`. -/
def Stat.setuid (st : Stat) : Bool := st.flag 9

/-- The beginning of `exec`, up to `stati`. -/
def execStat (cwd : Fin NINODE) (path : List UInt8) : FsM (Option (Fin NINODE × Stat)) := do
  match ← namei cwd path with
  | none => return none
  | some ip =>
    ilock ip
    let st ← stati ip
    return some (ip, st)

/-- The check of the ELF header. When `readi` returns `-1`, which is not less than `sizeof(elf)` as
an unsigned number, the header is what was on the stack. -/
def headerOk (ip : Fin NINODE) : FsM Bool := do
  match ← readi ip 0 elfhdrSize with
  | none => return true
  | some elf => return decide (elfhdrSize ≤ elf.length ∧ field elf 0 4 = ELF_MAGIC)

/-- `exec`. With `loads`, the header on the stack is accepted, the segments are loaded and the
arguments are copied. What the loader does to memory is left out. -/
def execUser (p : Fin NPROC) (path : List UInt8) (loads : Bool) : Routine Users Int := do
  let cwd ← onKernel (cwdOf p)
  match ← onKernel (liftFs (execStat cwd path)) with
  | none => return -1
  | some (ip, st) =>
    let c := (← get).cred p
    if execAllowed st c then
      let elf ← onKernel (liftFs (headerOk ip))
      onKernel (liftFs (iunlockput ip))
      if elf ∧ loads then
        if st.setuid then modifyCred p fun c => { c with uid := st.uid.toUInt32 } else pure ()
        return 0
      else return -1
    else
      onKernel (liftFs (iunlockput ip))
      return -1

/-! ## Runs -/

/-- A call that has to do with ids, with its arguments as fetched. -/
inductive UserCall where
  | setuid (n : Int32)
  | setgid (n : Int32)
  | fork (np : Option (Fin NPROC))
  | exec (path : List UInt8) (loads : Bool)
  | chmod (path : List UInt8) (mode : Int32)
  | chown (path : List UInt8) (owner : Int32)
  | chgrp (path : List UInt8) (group : Int32)

/-- The call, made by the process `p`. -/
def UserCall.run (p : Fin NPROC) : UserCall → Routine Users Int
  | .setuid n => sysSetuid p n
  | .setgid n => sysSetgid p n
  | .fork none => return -1
  | .fork (some np) => forkUser p np
  | .exec path loads => execUser p path loads
  | .chmod path mode => onKernel ((Call.chmod (some path) mode.toUInt32).run p)
  | .chown path owner => onKernel ((Call.chown (some path) owner.toUInt32.toUInt16).run p)
  | .chgrp path group => onKernel ((Call.chgrp (some path) group.toUInt32.toUInt16).run p)

/-- The kernel after `userinit`. -/
def Users.boot (disk : Nat → Block) (console : Nat → Option (List UInt8)) (initproc : Fin NPROC) :
    Users where
  k := userinit disk console initproc
  cred _ := { uid := DEFAULT_UID.toUInt32, gid := DEFAULT_GID.toUInt32 }

/-- A completed call. -/
structure UserStep where
  before : Users
  p : Fin NPROC
  call : UserCall
  ret : Int
  after : Users

/-- The kernel gets from `s₀` to a state by completed calls, in any order and by any processes. -/
inductive UserRun (s₀ : Users) : List UserStep → Users → Prop where
  | init : UserRun s₀ [] s₀
  | step {steps : List UserStep} {s s' : Users} {p : Fin NPROC} {call : UserCall} {ret : Int} :
    UserRun s₀ steps s → call.run p s = .ok (ret, s') →
      UserRun s₀ (steps ++ [⟨s, p, call, ret, s'⟩]) s'

/-- Every id is in the range of `sys_setuid` and `sys_setgid`. -/
def Users.InRange (s : Users) : Prop :=
  ∀ p, (s.cred p).uid.toNat ≤ MAXID ∧ (s.cred p).gid.toNat ≤ MAXID

/-- What `exec` finds under a path. -/
def Users.stat? (s : Users) (p : Fin NPROC) (path : List UInt8) : Option Stat :=
  match cwdOf p s.k with
  | .ok (cwd, k) =>
    match execStat cwd path k.fs with
    | .ok (some (_, st), _) => some st
    | _ => none
  | .error _ => none

/-- The call did not run a file with the `setuid` bit whose owner is out of range. -/
def UserStep.OwnerInRange (st : UserStep) : Prop :=
  match st.call with
  | .exec path _ => st.ret = 0 → ∀ x ∈ st.before.stat? st.p path, x.setuid → x.uid.toNat ≤ MAXID
  | _ => True

/-! ## What a call does to the ids -/

section
variable {s s' : Users} {p : Fin NPROC} {ret : Int}

theorem sat_onKernel {α : Type} {m : SysM State α} {E : Stop → Prop} {Q : α → Users → Prop} :
    Sat E (onKernel m) s Q ↔ Sat E m s.k fun a k => Q a { s with k } := sat_zoom

/-- A routine that works on files leaves the ids alone. -/
theorem onKernel_cred {α : Type} {m : SysM State α} :
    Sat (fun _ => True) (onKernel m) s fun _ s' => s'.cred = s.cred :=
  sat_onKernel.2 (Sat.of_returns fun _ _ _ => rfl)

section
variable (h : s.InRange)
include h

/-- What a change of the ids of one process keeps for the others. -/
theorem Users.InRange.update {c : Cred} (hs : s'.cred = update s.cred p c)
    (hc : c.uid.toNat ≤ MAXID ∧ c.gid.toNat ≤ MAXID) : s'.InRange := by
  intro q
  rw [hs]
  rcases eq_or_ne q p with rfl | hq
  · rwa [update_self]
  · rw [update_of_ne hq]
    exact h q

theorem Users.InRange.of_eq (hs : s'.cred = s.cred) : s'.InRange := by
  intro q
  rw [hs]
  exact h q

/-- An id that passes the check is in range. -/
theorem setId_inRange {n : Int32} {f : UInt32 → Cred → Cred}
    (hf : ∀ id c, id.toNat ≤ MAXID → c.uid.toNat ≤ MAXID ∧ c.gid.toNat ≤ MAXID →
      (f id c).uid.toNat ≤ MAXID ∧ (f id c).gid.toNat ≤ MAXID) :
    Sat (fun _ => True) (setId p n f) s fun _ s' => s'.InRange := by
  refine Sat.ite (fun _ => h) fun hn => ?_
  rw [not_or, Int32.not_lt, Int32.not_lt] at hn
  have h0 : 0 ≤ n.toInt := Int32.le_iff_toInt_le.1 hn.1
  have h1 : n.toInt ≤ 32767 := Int32.le_iff_toInt_le.1 hn.2
  have hid : n.toUInt32.toNat ≤ MAXID := by
    rw [toNat_toUInt32 n, MAXID]
    omega
  exact h.update rfl (hf _ _ hid (h p))

theorem sysSetuid_inRange {n : Int32} :
    Sat (fun _ => True) (sysSetuid p n) s fun _ s' => s'.InRange :=
  setId_inRange h fun _ _ hid hc => ⟨hid, hc.2⟩

theorem sysSetgid_inRange {n : Int32} :
    Sat (fun _ => True) (sysSetgid p n) s fun _ s' => s'.InRange :=
  setId_inRange h fun _ _ hid hc => ⟨hc.1, hid⟩

theorem forkUser_inRange {np : Fin NPROC} :
    Sat (fun _ => True) (forkUser p np) s fun _ s' => s'.InRange := by
  refine onKernel_cred.bind fun _ s1 h1 => ?_
  rw [sat_get_bind]
  exact (h.of_eq h1).update rfl (h.of_eq h1 p)

end

/-- A successful `exec` takes the `uid` from the file it has found, if that has the `setuid` bit; it
changes no other id, and a failed one changes none. -/
theorem execUser_cred {path : List UInt8} {loads : Bool} :
    Sat (fun _ => True) (execUser p path loads) s fun ret s' =>
      s'.cred = s.cred ∧ (ret = 0 → ∀ x ∈ s.stat? p path, ¬ x.setuid) ∨
      ret = 0 ∧ ∃ x ∈ s.stat? p path, x.setuid ∧
        s'.cred = update s.cred p { s.cred p with uid := x.uid.toUInt32 } := by
  have hbad : ∀ {s' : Users}, s'.cred = s.cred → s'.cred = s.cred ∧ ((-1 : Int) = 0 →
      ∀ x ∈ s.stat? p path, ¬ x.setuid) := fun h => ⟨h, fun h => absurd h (by decide)⟩
  rw [execUser, sat_bind, sat_onKernel]
  refine Sat.of_returns fun cwd k hk => ?_
  rw [sat_bind, sat_onKernel, liftFs, sat_zoom]
  refine Sat.of_returns fun r fs hfs => ?_
  cases r with
  | none => exact .inl (hbad rfl)
  | some x =>
    obtain ⟨ip, st⟩ := x
    have hst : s.stat? p path = some st := by
      rw [Users.stat?, hk]
      simp only [hfs]
    rw [sat_get_bind]
    refine Sat.ite (fun _ => ?_) fun _ => ?_
    · refine onKernel_cred.bind fun elf s1 h1 => onKernel_cred.bind fun _ s2 h2 => ?_
      have hs2 : s2.cred = s.cred := h2.trans h1
      refine Sat.ite (fun _ => ?_) fun _ => .inl (hbad hs2)
      rw [hst]
      by_cases hsetuid : st.setuid = true
      · rw [if_pos hsetuid]
        refine .inr ⟨rfl, st, rfl, hsetuid, ?_⟩
        change update s2.cred p _ = _
        rw [hs2]
      · rw [if_neg hsetuid]
        exact .inl ⟨hs2, fun _ x hx => Option.mem_some.1 hx ▸ hsetuid⟩
    · exact onKernel_cred.bind fun _ s1 h1 => .inl (hbad h1)

/-- After a call from a state where all ids are in range, they still are if and only if the call did
not run a file whose owner is out of range. -/
theorem call_inRange {call : UserCall} (h : s.InRange) (hr : call.run p s = .ok (ret, s')) :
    s'.InRange ↔ UserStep.OwnerInRange ⟨s, p, call, ret, s'⟩ := by
  have keeps : ∀ {m : Routine Users Int}, (Sat (fun _ => True) m s fun _ s' => s'.InRange) →
      m s = .ok (ret, s') → (s'.InRange ↔ True) := fun hm hr => iff_true_intro (hm.of_ok hr)
  have files : ∀ {m : SysM State Int}, onKernel m s = .ok (ret, s') → (s'.InRange ↔ True) :=
    fun hr => iff_true_intro (h.of_eq (onKernel_cred.of_ok hr))
  cases call with
  | setuid n => exact keeps (sysSetuid_inRange h) hr
  | setgid n => exact keeps (sysSetgid_inRange h) hr
  | fork np =>
    cases np with
    | none => exact keeps (m := pure (-1)) h hr
    | some np => exact keeps (forkUser_inRange h) hr
  | exec path loads =>
    rcases execUser_cred.of_ok hr with ⟨hc, hx⟩ | ⟨hret, x, hx, hs, hc⟩
    · exact iff_of_true (h.of_eq hc) fun hret y hy hsy => absurd hsy (hx hret y hy)
    · refine ⟨fun h' _ y hy _ => ?_, fun ho => h.update hc ⟨?_, (h p).2⟩⟩
      · have hp := (h' p).1
        rw [hc, update_self] at hp
        rwa [Option.mem_unique hy hx, ← UInt16.toNat_toUInt32]
      · rw [UInt16.toNat_toUInt32]
        exact ho hret x hx hs
  | chmod path mode | chown path owner | chgrp path group => exact files hr

end

/-- In every run from `userinit`, on any disk: the ids of all processes stay within 0..32767 in every
state of the run if and only if no successful `exec` ran a file with the `setuid` bit whose owner
is above 32767. -/
theorem ids_in_range_iff {disk : Nat → Block} {console : Nat → Option (List UInt8)}
    {initproc : Fin NPROC} {steps : List UserStep} {s : Users}
    (h : UserRun (.boot disk console initproc) steps s) :
    (Users.boot disk console initproc).InRange ∧ ((∀ st ∈ steps, st.after.InRange) ↔
      ∀ st ∈ steps, st.OwnerInRange) := by
  have hboot : (Users.boot disk console initproc).InRange := fun _ => ⟨Nat.zero_le _, Nat.zero_le _⟩
  refine ⟨hboot, ?_⟩
  -- The last state of a run whose states are all in range is one of them.
  suffices hs : ((∀ st ∈ steps, st.after.InRange) ↔ ∀ st ∈ steps, st.OwnerInRange) ∧
      ((∀ st ∈ steps, st.after.InRange) → s.InRange) from hs.1
  induction h with
  | init => exact ⟨by simp, fun _ => hboot⟩
  | step h hr ih =>
    simp only [mem_append, mem_singleton, or_imp, forall_and, forall_eq]
    refine ⟨?_, fun hall => hall.2⟩
    rw [ih.1]
    exact and_congr_right fun hall => call_inRange (ih.2 (ih.1.2 hall)) hr

/-- A process that takes the largest id keeps all ids in range. -/
theorem ids_in_range_iff_setuid : ∃ st : UserStep,
    UserRun (.boot (fun _ => .zero) (fun _ => none) firstSlot) [st] st.after ∧
    st.call = .setuid 32767 ∧ (st.after.cred firstSlot).uid = 32767 ∧ st.after.InRange := by
  obtain ⟨ret, s, hs, huid⟩ : ∃ ret s, (UserCall.setuid 32767).run firstSlot
      (.boot (fun _ => .zero) (fun _ => none) firstSlot) = .ok (ret, s) ∧
      (s.cred firstSlot).uid = 32767 := ⟨_, _, rfl, rfl⟩
  have hrun := UserRun.step .init hs
  refine ⟨_, hrun, rfl, huid, ?_⟩
  have hall := (ids_in_range_iff hrun).2.2 fun st hst => ?_
  · exact hall _ (mem_singleton_self _)
  · rw [nil_append, mem_singleton] at hst
    rw [hst]
    trivial

/-! ## A run out of the range -/

/-- Calls in a row, with what they return. -/
def runCalls (calls : List (Fin NPROC × UserCall)) : Routine Users (List Int) :=
  calls.mapM fun c => c.2.run c.1

/-- Calls in a row are a run. -/
theorem UserRun.of_runCalls {s0 : Users} {calls : List (Fin NPROC × UserCall)} :
    ∀ {steps s rets s'}, UserRun s0 steps s → runCalls calls s = .ok (rets, s') →
      ∃ more, UserRun s0 (steps ++ more) s' ∧ more.map (fun st => (st.p, st.call)) = calls ∧
        more.map UserStep.ret = rets := by
  induction calls with
  | nil =>
    intro steps s rets s' h hr
    cases hr
    exact ⟨[], by rwa [append_nil], rfl, rfl⟩
  | cons c calls ih =>
    intro steps s rets s' h hr
    rw [runCalls, mapM_cons] at hr
    obtain ⟨⟨ret, s1⟩, h1, hr⟩ := bind_eq_ok.1 hr
    obtain ⟨⟨rets', s2⟩, h2, hr⟩ := bind_eq_ok.1 hr
    cases hr
    obtain ⟨more, hrun, hcalls, hrets⟩ := ih (.step h h1) h2
    refine ⟨⟨s, c.1, c.2, ret, s1⟩ :: more, ?_, ?_, ?_⟩
    · rwa [append_assoc] at hrun
    · rw [map_cons, hcalls]
    · rw [map_cons, hrets]

/-- The header of a program without segments, in a file `a`. -/
def emptyProgram : Mkfs.Input where
  name := [97]
  reads := [[0x7F, 0x45, 0x4C, 0x46] ++ List.replicate 48 0]

/-- The image with that program. -/
def programDisk : Nat → Block :=
  match Mkfs.main [emptyProgram] Mkfs.zeroed with
  | .ok (_, m) => m.img
  | .error _ => fun _ => .zero

/-- `chmod("/a", 01111)`, `chown("/a", 40000)` and `exec("/a")`. -/
def setuidCalls : List (Fin NPROC × UserCall) :=
  [(firstSlot, .chmod [slash, 97] 0x249), (firstSlot, .chown [slash, 97] 40000),
    (firstSlot, .exec [slash, 97] true)]

/-- The first process runs a file it has given away, and has the user id 40000. -/
theorem ids_out_of_range_setuidCalls : ∃ steps s,
    UserRun (.boot programDisk (fun _ => none) firstSlot) steps s ∧
    steps.map (fun st => (st.p, st.call)) = setuidCalls ∧ steps.map UserStep.ret = [0, 0, 0] ∧
    (s.cred firstSlot).uid = 40000 ∧ ¬ s.InRange := by
  have hrun : ((runCalls setuidCalls (.boot programDisk (fun _ => none) firstSlot)).toOption.any
      fun r => decide (r.1 = [0, 0, 0] ∧ (r.2.cred firstSlot).uid = 40000)) = true := by
    decide +kernel
  obtain ⟨⟨rets, s⟩, hr, hs⟩ := exists_ok hrun
  obtain ⟨hrets, huid⟩ := of_decide_eq_true hs
  obtain ⟨steps, hsteps, hcalls, hret⟩ := UserRun.of_runCalls .init hr
  refine ⟨steps, s, hsteps, hcalls, hret.trans hrets, huid, fun h => ?_⟩
  have hle := (h firstSlot).1
  rw [huid] at hle
  exact absurd hle (by decide)

end TronBoss.Fs
