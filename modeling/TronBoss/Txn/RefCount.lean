import TronBoss.Fs.Structure
import TronBoss.Txn.Calls

/-!
# Conservation of references to inodes

The references to an inode that are accounted for are those of open files and of current
directories. Every call leaves the number of the others alone, except `chmod`, `chown` and `chgrp`:
each success adds one, which nobody will ever give up.
-/

namespace TronBoss.Txn

open Lib Fs Function

section
variable {disk : Nat → Block} {console : Nat → Option (List UInt8)} {initproc : Fin NPROC}
  {steps : List Step} {k : Kernel Sys}

/-- After `userinit` the reference of the first process is the only one. -/
theorem refs_boot (e : Fin NINODE) :
    (((boot disk console initproc).fs.fs.icache e).ref : Int) =
      (boot disk console initproc).files e + (boot disk console initproc).cwds e := by
  have hfiles : (boot disk console initproc).files e = 0 := by
    rw [Kernel.files, Finset.card_eq_zero, Finset.filter_eq_empty_iff]
    rintro f - ⟨⟩
  have hcwd (p : Fin NPROC) :
      ((boot disk console initproc).proc p).cwd = some e ↔ p = initproc ∧ rootEntry = e := by
    simp only [boot, Fs.userinit, Kernel.start]
    split <;> simp [*]
  rw [hfiles, Kernel.cwds]
  simp only [hcwd]
  rcases eq_or_ne rootEntry e with rfl | hne
  · simp only [and_true, Finset.filter_eq', Finset.mem_univ, if_true, Finset.card_singleton]
    rfl
  · simp [boot, Fs.userinit, Kernel.start, iinit, State.setInode, hne, hne.symm]

theorem idle_boot : Idle [] 0 (boot disk console initproc) := by
  refine ⟨_, ⟨⟨[], rfl, rfl⟩, rfl, rfl, rfl, fun e he => ?_, fun e => ?_⟩, fun _ => rfl,
    fun _ _ => rfl, Multiset.nodup_zero, by simp [idle]⟩
  · rcases eq_or_ne e rootEntry with rfl | hne
    · simp [boot, Fs.userinit, Kernel.start, State.setInode] at he
    · simp [boot, Fs.userinit, Kernel.start, iinit, State.setInode, hne] at he
  · rw [refs_boot]
    simp [idle]

/-- What was asked of the log before does not matter. -/
theorem Idle.rebase {ops : List LogOp} {x : Fin NINODE → Int} (h : Idle ops x k) :
    Idle k.fs.ops x k := by
  obtain ⟨c, h⟩ := h
  exact ⟨c, { h with held := { h.held with ops := ⟨[], (List.append_nil _).symm, rfl⟩ } }⟩

/-- Between calls nothing is held, and of the references that nobody holds there is one for each
leak. -/
theorem idle_of_run (h : Run (boot disk console initproc) steps k) :
    ∃ x, Idle k.fs.ops x k ∧ (∀ e, 0 ≤ x e) ∧ (x = 0 ↔ ∀ st ∈ steps, ¬ st.Leaks) := by
  induction h with
  | init => exact ⟨0, idle_boot, fun _ => le_rfl, by simp⟩
  | @step steps k k' p call ret _ hrun ih =>
    obtain ⟨x, hidle, hpos, hiff⟩ := ih
    have hread (f : Fin NFILE) (n : UInt32) (r : Int) :
        Sat (Allowed true) (fileread f n r) k fun _ k' => Idle k.fs.ops x k' := by
      obtain ⟨c, hk⟩ := hidle
      exact (keeps_fileread rfl (Multiset.notMem_zero f) n r k hk).weaken fun _ _ h => ⟨c, h⟩
    rcases (sat_run hidle hread p call).of_ok hrun with ⟨hleak, e, hk'⟩ | ⟨hleak, hk'⟩
    · refine ⟨_, hk'.rebase, fun e' => ?_, iff_of_false (fun h0 => ?_) fun hall => ?_⟩
      · rw [Pi.add_apply, Pi.single_apply]
        have := hpos e'
        split <;> omega
      · have h1 := congrFun h0 e
        have h2 := hpos e
        rw [Pi.add_apply, Pi.single_eq_same, Pi.zero_apply] at h1
        omega
      · exact hall _ (List.mem_append_right _ (List.mem_singleton_self _)) hleak
    · refine ⟨x, hk'.rebase, hpos, ?_⟩
      rw [hiff]
      simp only [List.mem_append, List.mem_singleton, or_imp, forall_and, forall_eq]
      exact (and_iff_left hleak).symm

/-- After any sequence of completed calls from `userinit`, on any disk: the reference count of every
cache entry is the number of files in use and of current directories that refer to it, if and only
if no `chmod`, `chown` or `chgrp` has succeeded. -/
theorem inode_refs_conserved_iff (h : Run (boot disk console initproc) steps k) :
    (∀ e, (k.fs.fs.icache e).ref = k.files e + k.cwds e) ↔ ∀ st ∈ steps, ¬ st.Leaks := by
  obtain ⟨x, ⟨c, hk⟩, -, hiff⟩ := idle_of_run h
  rw [← hiff, funext_iff]
  refine forall_congr' fun e => ?_
  have href := hk.held.refs e
  simp only [idle, Multiset.count_zero] at href
  rw [href, Pi.zero_apply]
  omega

end

/-! ## Two runs -/

/-- A disk with a root directory of one entry, which is in the first data block. -/
def rootDisk (b : Nat) : Block :=
  let sb := laidOut 1 8
  if b = sb.inodestart then
    setDinode .zero ROOTINO { Dinode.zero with
      type := T_DIR, nlink := 1, size := 16,
      addrs := Function.update (fun _ => 0) 0 (UInt32.ofNat sb.nmeta) }
  else if b = sb.bmapstart then (blankDisk 1 8 b).setBit sb.nmeta
  else if b = sb.nmeta then Bytes.zero.write 0 (leBytes 2 ROOTINO ++ dot)
  else blankDisk 1 8 b

/-- The kernel that the runs start from. -/
def rootKernel : Kernel Sys := boot rootDisk (fun _ => none) firstSlot

/-- The root directory is opened: a file and a current directory refer to it. -/
theorem inode_refs_conserved_iff_open : ∃ k,
    Run rootKernel [⟨firstSlot, .open (some [slash]) O_RDONLY, 0⟩] k ∧ k.files rootEntry = 1 ∧
    ∀ e, (k.fs.fs.icache e).ref = k.files e + k.cwds e := by
  have hopen : ∃ ret k, (Call.open (some [slash]) O_RDONLY).run firstSlot rootKernel = .ok (ret, k) ∧
      ret = 0 ∧ k.files rootEntry = 1 := Sat.returns (by decide +kernel)
  obtain ⟨_, k, hrun, rfl, hfiles⟩ := hopen
  have hreach := Run.step .init hrun
  refine ⟨k, hreach, hfiles, (inode_refs_conserved_iff hreach).2 fun st hst => ?_⟩
  rw [List.nil_append, List.mem_singleton] at hst
  rw [hst]
  exact id

/-- After `chmod("/", 0755)` the root directory has two references, but only the current directory of
the first process refers to it. -/
theorem chmod_leaks_root : ∃ k,
    Run rootKernel [⟨firstSlot, .chmod (some [slash]) DEFAULT_MODE, 0⟩] k ∧
    (k.fs.fs.icache rootEntry).ref = 2 ∧ k.files rootEntry = 0 ∧ k.cwds rootEntry = 1 := by
  have hchmod : ∃ ret k, (Call.chmod (some [slash]) DEFAULT_MODE).run firstSlot rootKernel =
      .ok (ret, k) ∧ ret = 0 ∧ (k.fs.fs.icache rootEntry).ref = 2 ∧ k.files rootEntry = 0 ∧
        k.cwds rootEntry = 1 := Sat.returns (by decide +kernel)
  obtain ⟨_, k, hrun, rfl, hk⟩ := hchmod
  exact ⟨k, .step .init hrun, hk⟩

end TronBoss.Txn
