import Mathlib.Data.Multiset.AddSub
import TronBoss.Lib.Accounts
import TronBoss.Txn.Fs

/-!
# What the file system holds

The account of the routines of `fs.c`: whether a transaction is open, the buffers that are taken, the
inodes that are locked and the references to inodes. Each routine gets one lemma that says how it moves
the account, on all of its paths. A routine that returns an inode has taken a reference to it, and
`iput` gives one up. A `log_write` needs an open transaction, unless the panic it otherwise ends in is
among the stops that are put up with.
-/

namespace TronBoss.Txn

open Lib Fs Function Multiset

/-! ## Transactions -/

/-- Whether a transaction is open after an operation; `none` when the operation is out of place. -/
def LogOp.next : Bool → LogOp → Option Bool
  | false, .beginOp => some true
  | true, .logWrite _ => some true
  | true, .endOp => some false
  | _, _ => none

/-- Whether a transaction is open after a list of operations that starts without one. -/
def follow (inside : Bool) (ops : List LogOp) : Option Bool := ops.foldlM LogOp.next inside

/-- The operations of transactions, one after the other and each with its writes. -/
def Transactions (ops : List LogOp) : Prop :=
  ∃ txs : List (List Nat), ops = txs.flatMap fun bs => .beginOp :: bs.map .logWrite ++ [.endOp]

theorem follow_snoc {b c : Bool} {ops : List LogOp} (h : follow b ops = some c) (op : LogOp) :
    follow b (ops ++ [op]) = op.next c := by
  unfold follow at h ⊢
  rw [List.foldlM_append, h]
  simp

/-- Operations that are nowhere out of place, with a transaction open at the start or not. -/
theorem transactions_of_follow {ops : List LogOp} :
    (follow false ops = some false → Transactions ops) ∧
      (follow true ops = some false →
        ∃ (bs : List Nat) (rest : List LogOp), ops = bs.map .logWrite ++ .endOp :: rest ∧ Transactions rest) := by
  induction ops with
  | nil => exact ⟨fun _ => ⟨[], rfl⟩, nofun⟩
  | cons op ops ih =>
    obtain ⟨ih0, ih1⟩ := ih
    cases op with
    | beginOp =>
      refine ⟨fun h => ?_, nofun⟩
      obtain ⟨bs, rest, rfl, txs, rfl⟩ := ih1 h
      exact ⟨bs :: txs, by simp⟩
    | endOp => exact ⟨nofun, fun h => ⟨[], ops, rfl, ih0 h⟩⟩
    | logWrite b =>
      refine ⟨nofun, fun h => ?_⟩
      obtain ⟨bs, rest, rfl, hrest⟩ := ih1 h
      exact ⟨b :: bs, rest, rfl, hrest⟩

/-! ## Accounts -/

/-- What is held: whether a transaction is open, which buffers, which locks of inodes and which
references to them. -/
structure Account where
  inside : Bool
  bufs : Multiset Nat
  locks : Multiset (Fin NINODE)
  refs : Multiset (Fin NINODE)

/-- What an account does not count: what was asked of the log before, and the references of others. -/
structure Past where
  ops : List LogOp
  refs : Fin NINODE → Int

/-- Every inode that is busy is among those locked. -/
def Within (locks : Multiset (Fin NINODE)) (s : Fs.State) : Prop :=
  ∀ e, (s.icache e).busy = true → e ∈ locks

/-- The state has the account, and since the operations of `past` nothing was asked of the log out of
place. -/
structure Account.Of (past : Past) (a : Account) (s : Sys) : Prop where
  ops : ∃ ops, s.ops = past.ops ++ ops ∧ follow false ops = some a.inside
  outstanding : s.outstanding = if a.inside then 1 else 0
  bufs : (s.bufs : Multiset Nat) = a.bufs
  locks : (s.locks : Multiset (Fin NINODE)) = a.locks
  within : Within a.locks s.fs
  refs : ∀ e, (s.fs.icache e).ref = past.refs e + a.refs.count e

/-- An inode that is returned, next to others. -/
def joined : Option (Fin NINODE) → Multiset (Fin NINODE) → Multiset (Fin NINODE)
  | none, R => R
  | some e, R => e ::ₘ R

/-- The panic of `log_write` without a transaction. -/
def outside : Stop := .panic "log_write outside of trans"

/-- The stops that are put up with: all but that panic, and that one too if `w` says so. -/
def Allowed (w : Bool) (e : Stop) : Prop := e = outside → w = true

theorem allowed_panic {w : Bool} {msg : String} (h : msg ≠ "log_write outside of trans") :
    Allowed w (.panic msg) := fun he => absurd (Stop.panic.inj he) h

theorem allowed_diverge {w : Bool} : Allowed w .diverge := nofun

/-- The routine gives back what it takes, and leaves no transaction it opened. -/
abbrev Keeps {α : Type} (past : Past) (w : Bool) (a : Account) (m : TxM α) : Prop :=
  Moves (Account.Of past) (Allowed w) a m fun _ => a

/-- The routine gets from the account to the one `f` has for its result. -/
abbrev Takes {α : Type} (past : Past) (w : Bool) (a : Account) (m : TxM α)
    (f : α → Account) : Prop :=
  Moves (Account.Of past) (Allowed w) a m f

section
variable {α : Type} {w b : Bool} {past : Past} {a : Account} {B : Multiset Nat}
  {L R : Multiset (Fin NINODE)} {e : Fin NINODE}

/-! ## Changes of the inode cache -/

/-- A change of the file system that locks no inode and takes no reference keeps the account. -/
theorem keeps_modifyFs {f : Fs.State → Fs.State}
    (hf : ∀ s e, ((f s).icache e).busy = (s.icache e).busy ∧ ((f s).icache e).ref = (s.icache e).ref) :
    Keeps past w a (modifyFs f) := fun s hs =>
  { hs with
    within := fun e he => hs.within e ((hf s.fs e).1 ▸ he)
    refs := fun e => (hf s.fs e).2.trans (hs.refs e) }

/-- A new cache entry, with as many more references as there are held. -/
theorem Account.Of.setInode {s : Sys} {ip : Inode} {R' : Multiset (Fin NINODE)}
    (hs : Account.Of past ⟨b, B, L, R⟩ s) (hbusy : ip.busy = true → (s.fs.icache e).busy = true)
    (href : ip.ref + R.count e = (s.fs.icache e).ref + R'.count e)
    (hR : ∀ e' ≠ e, R'.count e' = R.count e') :
    Account.Of past ⟨b, B, L, R'⟩ { s with fs := s.fs.setInode e ip } where
  ops := hs.ops
  outstanding := hs.outstanding
  bufs := hs.bufs
  locks := hs.locks
  within e' he' := by
    rcases eq_or_ne e' e with rfl | hne
    · exact hs.within e' (hbusy (by simpa [State.setInode] using he'))
    · exact hs.within e' (by simpa [State.setInode, hne] using he')
  refs e' := by
    have hold := hs.refs e'
    rcases eq_or_ne e' e with rfl | hne
    · simp only [State.setInode, update_self] at hold ⊢
      omega
    · simp only [State.setInode, update_of_ne hne, hR e' hne]
      exact hold

theorem keeps_modifyInode {f : Inode → Inode}
    (hf : ∀ ip, ((f ip).busy = true → ip.busy = true) ∧ (f ip).ref = ip.ref) :
    Keeps past w ⟨b, B, L, R⟩ (modifyInode e f) := fun _ hs =>
  hs.setInode (hf _).1 (by rw [(hf _).2]) fun _ _ => rfl

/-- One more reference to the inode. -/
theorem Account.Of.take {s : Sys} {ip : Inode} (hs : Account.Of past ⟨b, B, L, R⟩ s)
    (hbusy : ip.busy = true → (s.fs.icache e).busy = true) (href : ip.ref = (s.fs.icache e).ref + 1) :
    Account.Of past ⟨b, B, L, e ::ₘ R⟩ { s with fs := s.fs.setInode e ip } := by
  refine hs.setInode hbusy ?_ fun e' he => count_cons_of_ne he R
  rw [href, count_cons_self, Nat.cast_succ]
  ring

theorem moves_iget {inum : Nat} :
    Takes past w ⟨b, B, L, R⟩ (iget inum) fun e => ⟨b, B, L, e ::ₘ R⟩ := by
  refine fun s hs => sat_get_bind.2 ?_
  split
  · exact hs.take id rfl
  · split
    · rename_i e hfind
      have hfree := List.find?_some hfind
      exact hs.take (by rintro ⟨⟩) (by rw [of_decide_eq_true hfree]; rfl)
    · exact allowed_panic (by decide)

theorem moves_idup : Takes past w ⟨b, B, L, R⟩ (idup e) fun e => ⟨b, B, L, e ::ₘ R⟩ :=
  fun _ hs => hs.take id rfl

theorem moves_namexStart {path : List UInt8} :
    Takes past w ⟨b, B, L, R⟩ (namexStart e path) fun e => ⟨b, B, L, e ::ₘ R⟩ :=
  .ite moves_iget moves_idup

theorem keeps_stati : Keeps past w a (stati e) := .get_bind fun _ => .pure

/-! ## Buffers and the log -/

/-- `bread` returns with the buffer held. -/
theorem moves_bread (n : Nat) : Takes past w ⟨b, B, L, R⟩ (bread n) fun _ => ⟨b, n ::ₘ B, L, R⟩ := by
  refine .get_bind fun s => .ite (.throw allowed_diverge) ?_
  refine Moves.bind (f := fun _ => ⟨b, B, L, R⟩) (fun s hs => ?_) fun _ =>
    .bind (.modify fun s hs => ?_) fun _ => .pure
  · exact sat_zoom.2 (sat_panicIf_bind.2 ⟨fun _ => allowed_panic (by decide), fun _ => hs⟩)
  · exact { hs with bufs := by rw [← cons_coe, hs.bufs] }

theorem moves_brelse (n : Nat) : Takes past w ⟨b, n ::ₘ B, L, R⟩ (brelse n) fun _ => ⟨b, B, L, R⟩ := by
  refine .get_bind fun s => .panicIf_bind (allowed_panic (by decide)) ?_
  refine .modify fun s hs => { hs with bufs := ?_ }
  rw [← coe_erase, hs.bufs, erase_cons_head]

theorem keeps_bwrite (n : Nat) : Keeps past w a (bwrite n) :=
  .get_bind fun _ => .panicIf (allowed_panic (by decide))

theorem keeps_writeHead : Keeps past w ⟨b, B, L, R⟩ writeHead :=
  .get_bind fun _ => (moves_bread _).bind fun _ => (keeps_bwrite _).bind fun _ => moves_brelse _

theorem keeps_writeLog : Keeps past w ⟨b, B, L, R⟩ writeLog := by
  refine .get_bind fun s => .forM fun (block, tail) => ?_
  refine (moves_bread _).bind fun _ => (moves_bread block).bind fun _ => ?_
  exact (keeps_bwrite _).bind fun _ => (moves_brelse block).bind fun _ => moves_brelse _

/-- The buffers are given back in the order in which they were taken. -/
theorem keeps_installTrans : Keeps past w ⟨b, B, L, R⟩ installTrans := by
  refine .get_bind fun s => .forM fun (block, tail) => ?_
  refine (moves_bread _).bind fun _ => (moves_bread block).bind fun _ => ?_
  refine (keeps_bwrite _).bind fun _ => ?_
  rw [cons_swap]
  exact (moves_brelse _).bind fun _ => moves_brelse block

theorem keeps_commit : Keeps past w ⟨b, B, L, R⟩ commit := by
  refine .get_bind fun s => .ite ?_ .pure
  refine keeps_writeLog.bind fun _ => keeps_writeHead.bind fun _ => keeps_installTrans.bind fun _ => ?_
  exact (Moves.modify fun _ hs => { hs with }).bind fun _ => keeps_writeHead

theorem moves_beginOp : Takes past w ⟨false, B, L, R⟩ beginOp fun _ => ⟨true, B, L, R⟩ := by
  refine .get_bind fun s => .ite (.throw allowed_diverge) (.modify fun s hs => ?_)
  obtain ⟨ops, hops, hf⟩ := hs.ops
  have ho : s.outstanding = 0 := hs.outstanding
  exact { hs with
    ops := ⟨ops ++ [.beginOp], by rw [hops, List.append_assoc], follow_snoc hf _⟩
    outstanding := by simp [ho] }

/-- `end_op` ends the operation. -/
theorem moves_endOp : Takes past w ⟨true, B, L, R⟩ endOp fun _ => ⟨false, B, L, R⟩ := by
  refine .bind (.modify (j := ⟨false, B, L, R⟩) fun s hs => ?_) fun _ => ?_
  · obtain ⟨ops, hops, hf⟩ := hs.ops
    have ho : s.outstanding = 1 := hs.outstanding
    exact { hs with
      ops := ⟨ops ++ [.endOp], by rw [hops, List.append_assoc], follow_snoc hf _⟩
      outstanding := by simp [ho] }
  · exact .get_bind fun _ => .ite keeps_commit .pure

/-- `log_write` is called inside a transaction only. -/
theorem keeps_logWrite (hw : b = true ∨ w = true) (n : Nat) (c : Block) :
    Keeps past w ⟨b, B, L, R⟩ (logWrite n c) := by
  intro s hs
  refine sat_get_bind.2 (sat_panicIf_bind.2 ⟨fun _ => allowed_panic (by decide), fun _ => ?_⟩)
  have hout : s.outstanding = if b then 1 else 0 := hs.outstanding
  refine sat_panicIf_bind.2 ⟨fun ho _ => ?_, fun ho => ?_⟩
  · refine hw.resolve_left fun hb => ?_
    rw [if_pos hb] at hout
    omega
  · obtain rfl : b = true := by
      cases b with
      | false => exact absurd hout (by simp; omega)
      | true => rfl
    obtain ⟨ops, hops, hf⟩ := hs.ops
    have happ : s.ops ++ [.logWrite n] = past.ops ++ (ops ++ [.logWrite n]) := by
      rw [hops, List.append_assoc]
    exact { hs with ops := ⟨ops ++ [.logWrite n], happ, follow_snoc hf _⟩ }

/-! ## Locks -/

theorem State.ref_setBusy (s : Fs.State) (e e' : Fin NINODE) (busy : Bool) :
    ((s.setInode e { s.icache e with busy }).icache e').ref = (s.icache e').ref := by
  rcases eq_or_ne e' e with rfl | hne
  · simp only [State.setInode, update_self]
  · simp only [State.setInode, update_of_ne hne]

section
variable (e : Fin NINODE)

/-- Locking takes a lock that nobody has. -/
theorem moves_setBusy_true :
    Takes past w ⟨b, B, L, R⟩ (setBusy e true) fun _ => ⟨b, B, e ::ₘ L, R⟩ := by
  intro s hs
  have hlocks : ((e :: s.locks : List (Fin NINODE)) : Multiset (Fin NINODE)) = e ::ₘ L := by
    rw [← cons_coe, hs.locks]
  refine { hs with
    locks := hlocks, within := fun e' he' => ?_
    refs := fun e' => (State.ref_setBusy ..).trans (hs.refs e') }
  rcases eq_or_ne e' e with rfl | hne
  · exact mem_cons_self e' L
  · exact mem_cons_of_mem (hs.within e' (by simpa [State.setInode, hne] using he'))

/-- Unlocking gives the lock back. -/
theorem moves_setBusy_false :
    Takes past w ⟨b, B, e ::ₘ L, R⟩ (setBusy e false) fun _ => ⟨b, B, L, R⟩ := by
  intro s hs
  have hlocks : ((s.locks.erase e : List (Fin NINODE)) : Multiset (Fin NINODE)) = L := by
    rw [← coe_erase, hs.locks, erase_cons_head]
  refine { hs with
    locks := hlocks, within := fun e' he' => ?_
    refs := fun e' => (State.ref_setBusy ..).trans (hs.refs e') }
  rcases eq_or_ne e' e with rfl | hne
  · simp [State.setInode] at he'
  · have hmem := hs.within e' (by simpa [State.setInode, hne] using he')
    exact (mem_cons.1 hmem).resolve_left hne

theorem keeps_iload : Keeps past w ⟨b, B, L, R⟩ (iload e) := by
  refine .get_bind fun s => (moves_bread _).bind fun _ => ?_
  refine .bind (keeps_modifyInode fun _ => ⟨id, rfl⟩) fun _ => (moves_brelse _).bind fun _ => ?_
  exact .panicIf (allowed_panic (by decide))

theorem moves_ilock :
    Takes past w ⟨b, B, L, R⟩ (ilock e) fun _ => ⟨b, B, e ::ₘ L, R⟩ := by
  refine .get_bind fun s => .panicIf_bind (allowed_panic (by decide)) ?_
  refine .ite (.throw allowed_diverge) ((moves_setBusy_true e).bind fun _ => ?_)
  exact .ite .pure (keeps_iload e)

theorem moves_iunlock :
    Takes past w ⟨b, B, e ::ₘ L, R⟩ (iunlock e) fun _ => ⟨b, B, L, R⟩ :=
  .get_bind fun _ => .panicIf_bind (allowed_panic (by decide)) (moves_setBusy_false e)

end

/-- An inode that is let go of was locked. -/
theorem moves_iunlock_bind {β : Type} {k : Unit → TxM β} {g : β → Account}
    (h : ∀ L', L = e ::ₘ L' → Takes past w ⟨b, B, L', R⟩ (k ()) g) :
    Takes past w ⟨b, B, L, R⟩ (iunlock e >>= k) g := by
  intro s hs
  rcases Bool.eq_false_or_eq_true (s.fs.icache e).busy with hbusy | hbusy
  · obtain ⟨L', rfl⟩ := exists_cons_of_mem (hs.within e hbusy)
    exact Moves.bind (moves_iunlock e) (fun _ => h L' rfl) s hs
  · refine sat_bind.2 (sat_get_bind.2 (sat_panicIf_bind.2 ⟨fun _ => ?_, fun hc => ?_⟩))
    · exact allowed_panic (by decide)
    · exact absurd (.inl hbusy) hc

/-- The console lets go of the inode and locks it again. -/
theorem keeps_consoleread (n : Nat) : Keeps past w ⟨b, B, L, R⟩ (consoleread e n) := by
  refine moves_iunlock_bind fun L' hL => ?_
  refine Moves.bind (f := fun _ => ⟨b, B, L', R⟩) (fun s hs => ?_) fun _ => ?_
  · exact sat_zoom.2 { hs with }
  · exact hL ▸ (moves_ilock e).bind fun _ => .pure

theorem keeps_consolewrite (n : Nat) : Keeps past w ⟨b, B, L, R⟩ (consolewrite e n) :=
  moves_iunlock_bind fun _ hL => hL ▸ (moves_ilock e).bind fun _ => .pure

end

/-! ## The file system -/

section
variable {w b : Bool} (hw : b = true ∨ w = true) {past : Past} {B : Multiset Nat}
  {L R : Multiset (Fin NINODE)}

theorem keeps_readsb : Keeps past w ⟨b, B, L, R⟩ readsb :=
  (moves_bread 1).bind fun _ => (moves_brelse 1).bind fun _ => .pure

include hw

theorem keeps_bzero (n : Nat) : Keeps past w ⟨b, B, L, R⟩ (bzero n) :=
  (moves_bread n).bind fun _ => (keeps_logWrite hw n _).bind fun _ => moves_brelse n

theorem keeps_ballocFrom (k n : Nat) : Keeps past w ⟨b, B, L, R⟩ (ballocFrom k n) := by
  induction k generalizing n with
  | zero => exact .throw allowed_diverge
  | succ k ih =>
    refine .get_bind fun s => .ite ?_ (.throw (allowed_panic (by decide)))
    refine (moves_bread _).bind fun _ => ?_
    split
    · refine (keeps_logWrite hw _ _).bind fun _ => (moves_brelse _).bind fun _ => ?_
      exact (keeps_bzero hw _).bind fun _ => .pure
    · exact (moves_brelse _).bind fun _ => ih _

theorem keeps_balloc : Keeps past w ⟨b, B, L, R⟩ balloc := .get_bind fun _ => keeps_ballocFrom hw _ _

theorem keeps_bfree (n : Nat) : Keeps past w ⟨b, B, L, R⟩ (bfree n) := by
  refine keeps_readsb.bind fun sb => .bind (keeps_modifyFs fun _ _ => ⟨rfl, rfl⟩) fun _ => ?_
  refine (moves_bread _).bind fun _ => .panicIf_bind (allowed_panic (by decide)) ?_
  exact (keeps_logWrite hw _ _).bind fun _ => moves_brelse _

/-- `ialloc` returns with a reference. -/
theorem moves_iallocFrom (type : Int16) (k inum : Nat) :
    Takes past w ⟨b, B, L, R⟩ (iallocFrom type k inum) fun e => ⟨b, B, L, e ::ₘ R⟩ := by
  induction k generalizing inum with
  | zero => exact .throw (allowed_panic (by decide))
  | succ k ih =>
    refine .get_bind fun s => (moves_bread _).bind fun _ => .ite ?_ ?_
    · refine (keeps_logWrite hw _ _).bind fun _ => (moves_brelse _).bind fun _ => ?_
      exact moves_iget
    · exact (moves_brelse _).bind fun _ => ih _

theorem moves_ialloc (type : Int16) :
    Takes past w ⟨b, B, L, R⟩ (ialloc type) fun e => ⟨b, B, L, e ::ₘ R⟩ :=
  .get_bind fun _ => moves_iallocFrom hw _ _ _

section
variable (e : Fin NINODE)

theorem keeps_iupdate : Keeps past w ⟨b, B, L, R⟩ (iupdate e) :=
  .get_bind fun _ => (moves_bread _).bind fun _ => (keeps_logWrite hw _ _).bind fun _ =>
    moves_brelse _

theorem keeps_updateInode {f : Inode → Inode}
    (hf : ∀ ip, ((f ip).busy = true → ip.busy = true) ∧ (f ip).ref = ip.ref) :
    Keeps past w ⟨b, B, L, R⟩ (updateInode e f) :=
  (keeps_modifyInode hf).bind fun _ => keeps_iupdate hw e

theorem keeps_bmapAddr (k : Fin (NDIRECT + 1)) :
    Keeps past w ⟨b, B, L, R⟩ (bmapAddr e k) := by
  refine .get_bind fun s => .ite ((keeps_balloc hw).bind fun _ => ?_) .pure
  exact .bind (keeps_modifyInode fun _ => ⟨id, rfl⟩) fun _ => .pure

theorem keeps_bmapIndirect (bn : Nat) :
    Keeps past w ⟨b, B, L, R⟩ (bmapIndirect e bn) := by
  refine (keeps_bmapAddr hw e _).bind fun addr => (moves_bread addr).bind fun _ => .ite ?_ ?_
  · refine (keeps_balloc hw).bind fun _ => (keeps_logWrite hw _ _).bind fun _ => ?_
    exact (moves_brelse addr).bind fun _ => .pure
  · exact (moves_brelse addr).bind fun _ => .pure

theorem keeps_bmap (bn : Nat) : Keeps past w ⟨b, B, L, R⟩ (bmap e bn) :=
  .ite (keeps_bmapAddr hw e _)
    (.ite (keeps_bmapIndirect hw e _) (.throw (allowed_panic (by decide))))

theorem keeps_itruncDirect (k : Fin (NDIRECT + 1)) :
    Keeps past w ⟨b, B, L, R⟩ (itruncDirect e k) :=
  .get_bind fun _ => .ite .pure
    ((keeps_bfree hw _).bind fun _ => keeps_modifyInode fun _ => ⟨id, rfl⟩)

end

theorem keeps_itruncEntries (c : Block) : Keeps past w ⟨b, B, L, R⟩ (itruncEntries c) :=
  .forM fun _ => .ite .pure (keeps_bfree hw _)

section
variable (e : Fin NINODE)

theorem keeps_itruncIndirect : Keeps past w ⟨b, B, L, R⟩ (itruncIndirect e) := by
  refine .get_bind fun s => .ite .pure ((moves_bread _).bind fun c => ?_)
  refine (keeps_itruncEntries hw c).bind fun _ => (moves_brelse _).bind fun _ => ?_
  exact keeps_itruncDirect hw e _

theorem keeps_itrunc : Keeps past w ⟨b, B, L, R⟩ (itrunc e) := by
  refine .bind (.forM fun k => keeps_itruncDirect hw e k) fun _ => ?_
  exact (keeps_itruncIndirect hw e).bind fun _ => keeps_updateInode hw e fun _ => ⟨id, rfl⟩

/-- `iput` has the lock of an inode that it frees. -/
theorem keeps_ifree : Keeps past w ⟨b, B, L, R⟩ (ifree e) := by
  refine .get_bind fun s => .panicIf_bind (allowed_panic (by decide)) ?_
  refine (moves_setBusy_true e).bind fun _ => (keeps_itrunc hw e).bind fun _ => ?_
  refine .bind (keeps_updateInode hw e fun _ => ⟨id, rfl⟩) fun _ => ?_
  exact .bind (keeps_modifyInode fun _ => ⟨id, rfl⟩) fun _ => moves_setBusy_false e

/-- `iput` drops one reference. -/
theorem moves_iput :
    Takes past w ⟨b, B, L, e ::ₘ R⟩ (iput e) fun _ => ⟨b, B, L, R⟩ := by
  have hput : Takes past w ⟨b, B, L, e ::ₘ R⟩
      (modifyInode e fun ip => { ip with ref := ip.ref - 1 }) fun _ => ⟨b, B, L, R⟩ := by
    refine fun s hs => hs.setInode id ?_ fun e' he => (count_cons_of_ne he R).symm
    rw [count_cons_self, Nat.cast_succ]
    ring
  exact .get_bind fun s => .ite ((keeps_ifree hw e).bind fun _ => hput) hput

theorem moves_iunlockput :
    Takes past w ⟨b, B, e ::ₘ L, e ::ₘ R⟩ (iunlockput e) fun _ => ⟨b, B, L, R⟩ :=
  (moves_iunlock e).bind fun _ => moves_iput hw e

theorem keeps_readiLoop (k off n : Nat) :
    Keeps past w ⟨b, B, L, R⟩ (readiLoop e k off n) := by
  induction k generalizing off n with
  | zero =>
    cases n with
    | zero => exact .pure
    | succ n => exact .throw allowed_diverge
  | succ k ih =>
    cases n with
    | zero => exact .pure
    | succ n =>
      refine (keeps_bmap hw e _).bind fun c => (moves_bread c).bind fun _ => ?_
      exact (moves_brelse c).bind fun _ => (ih _ _).bind fun _ => .pure

theorem keeps_readi (off n : Nat) : Keeps past w ⟨b, B, L, R⟩ (readi e off n) := by
  refine .get_bind fun s => .ite (.ite (keeps_consoleread n) .pure) (.ite .pure ?_)
  exact (keeps_readiLoop hw e _ _ _).bind fun _ => .pure

theorem keeps_writeiChunk (off : Nat) (src : List UInt8) :
    Keeps past w ⟨b, B, L, R⟩ (writeiChunk e off src) := by
  refine (keeps_bmap hw e _).bind fun c => (moves_bread c).bind fun _ => ?_
  exact (keeps_logWrite hw c _).bind fun _ => moves_brelse c

theorem keeps_writeiLoop (k off : Nat) (src : List UInt8) :
    Keeps past w ⟨b, B, L, R⟩ (writeiLoop e k off src) := by
  induction k generalizing off src with
  | zero =>
    cases src with
    | nil => exact .pure
    | cons x src => exact .throw allowed_diverge
  | succ k ih =>
    cases src with
    | nil => exact .pure
    | cons x src => exact (keeps_writeiChunk hw e off _).bind fun _ => ih _ _

theorem keeps_writei (src : List UInt8) (off : Nat) :
    Keeps past w ⟨b, B, L, R⟩ (writei e src off) := by
  refine .get_bind fun s => .ite (.ite (keeps_consolewrite _) .pure) (.ite .pure (.ite .pure ?_))
  refine (keeps_writeiLoop hw e _ _ _).bind fun _ => .bind (.get_bind fun s => ?_) fun _ => .pure
  exact .ite (keeps_updateInode hw e fun _ => ⟨id, rfl⟩) .pure

end

/-! ## Directories and paths -/

theorem keeps_readDirent (dp : Fin NINODE) (off : Nat) {msg : String}
    (hmsg : msg ≠ "log_write outside of trans") :
    Keeps past w ⟨b, B, L, R⟩ (readDirent dp off msg) := by
  refine (keeps_readi hw dp off _).bind fun r => ?_
  cases r with
  | none => exact .throw (allowed_panic hmsg)
  | some bs => exact .ite .pure (.throw (allowed_panic hmsg))

/-- `dirlookup` returns with a reference when it finds the name. -/
theorem moves_dirlookupFrom (dp : Fin NINODE) (name : List UInt8) (k off : Nat) :
    Takes past w ⟨b, B, L, R⟩ (dirlookupFrom dp name k off)
      fun r => ⟨b, B, L, joined (r.map Prod.snd) R⟩ := by
  induction k generalizing off with
  | zero => exact .throw allowed_diverge
  | succ k ih =>
    refine .get_bind fun s => .ite ((keeps_readDirent hw dp off (by decide)).bind fun de => ?_)
      (.result rfl)
    exact .ite (moves_iget.bind fun _ => .result rfl) (ih _)

theorem moves_dirlookup (dp : Fin NINODE) (name : List UInt8) :
    Takes past w ⟨b, B, L, R⟩ (dirlookup dp name) fun r => ⟨b, B, L, joined (r.map Prod.snd) R⟩ :=
  .get_bind fun _ => .panicIf_bind (allowed_panic (by decide)) (moves_dirlookupFrom hw dp name _ _)

theorem keeps_dirlinkSlot (dp : Fin NINODE) (k off : Nat) :
    Keeps past w ⟨b, B, L, R⟩ (dirlinkSlot dp k off) := by
  induction k generalizing off with
  | zero => exact .throw allowed_diverge
  | succ k ih =>
    refine .get_bind fun s => .ite ((keeps_readDirent hw dp off (by decide)).bind fun de => ?_) .pure
    exact .ite .pure (ih _)

/-- `dirlink` drops the reference to an entry that it finds. -/
theorem keeps_dirlink (dp : Fin NINODE) (name : List UInt8) (inum : Nat) :
    Keeps past w ⟨b, B, L, R⟩ (dirlink dp name inum) := by
  refine (moves_dirlookup hw dp name).bind fun r => ?_
  cases r with
  | some q => exact (moves_iput hw _).bind fun _ => .pure
  | none =>
    refine .get_bind fun s => (keeps_dirlinkSlot hw dp _ _).bind fun off => ?_
    refine (keeps_writei hw dp _ off).bind fun r => ?_
    exact .panicIf_bind (allowed_panic (by decide)) .pure

/-- The reference to the inode that the walk starts from is given up on the way. -/
theorem moves_namexFrom (parent : Bool) (k : Nat) (ip : Fin NINODE) (path : List UInt8) :
    Takes past w ⟨b, B, L, ip ::ₘ R⟩ (namexFrom parent k ip path)
      fun r => ⟨b, B, L, joined (r.map Prod.fst) R⟩ := by
  induction k generalizing ip path with
  | zero => exact .throw allowed_diverge
  | succ k ih =>
    unfold namexFrom
    split
    · exact .ite ((moves_iput hw ip).bind fun _ => .result rfl) (.result rfl)
    · refine (moves_ilock ip).bind fun _ => .get_bind fun s => .ite ?_ (.ite ?_ ?_)
      · exact (moves_iunlockput hw ip).bind fun _ => .result rfl
      · exact (moves_iunlock ip).bind fun _ => .result rfl
      · refine (moves_dirlookup hw ip _).bind fun r => ?_
        cases r with
        | none => exact (moves_iunlockput hw ip).bind fun _ => .result rfl
        | some q =>
          change Takes past w ⟨b, B, ip ::ₘ L, q.2 ::ₘ ip ::ₘ R⟩ _ _
          rw [cons_swap]
          exact (moves_iunlockput hw ip).bind fun _ => ih _ _

theorem moves_namex (cwd : Fin NINODE) (path : List UInt8) (parent : Bool) :
    Takes past w ⟨b, B, L, R⟩ (namex cwd path parent)
      fun r => ⟨b, B, L, joined (r.map Prod.fst) R⟩ :=
  moves_namexStart.bind fun _ => moves_namexFrom hw parent _ _ _

theorem moves_namei (cwd : Fin NINODE) (path : List UInt8) :
    Takes past w ⟨b, B, L, R⟩ (namei cwd path) fun r => ⟨b, B, L, joined r R⟩ :=
  (moves_namex hw cwd path false).bind fun _ => .result rfl

theorem moves_nameiparent (cwd : Fin NINODE) (path : List UInt8) :
    Takes past w ⟨b, B, L, R⟩ (nameiparent cwd path)
      fun r => ⟨b, B, L, joined (r.map Prod.fst) R⟩ := moves_namex hw cwd path true

end

end TronBoss.Txn
