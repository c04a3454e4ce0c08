import Xv6.Fs.Calls
import Xv6.Lib.RefCount

/-!
# xv6 — references to inodes, and their locks

How the functions of the file system change the reference counts and locks of the inode table, whatever the
disk holds. Most functions leave all of them alone (`Keeps`). For the others, `Held I m O` says that
`m` starts with the pointers and locks `I` in its hands and ends with `O`, on each of its paths; whatever
there is besides, in files and current directories or in the hands of the caller, does not matter.
-/

namespace Xv6.Fs

open Hoare

/-- What a function can have in its hands: a pointer to an entry of the inode table, or the entry's lock. -/
inductive Hand where
  | ref (k : Nat)
  | lock (k : Nat)
  deriving DecidableEq, Repr

def Hand.slot : Hand → Nat
  | ref k => k
  | lock k => k

theorem ref_ne_lock (j k : Nat) : Hand.ref j ≠ .lock k := nofun

/-- The pointer that a place holds, if it holds one. -/
def ptr (x : Option Nat) : Multiset Hand := (ofOption x).map .ref

@[simp] theorem ptr_some (k : Nat) : ptr (some k) = {.ref k} := rfl

@[simp] theorem ptr_none : ptr none = 0 := rfl

/-- A pointer to an inode, and its lock. -/
abbrev both (k : Nat) : Multiset Hand := {.lock k} + {.ref k}

/-- The same, if there is an inode. -/
def locked (x : Option Nat) : Multiset Hand :=
  match x with
  | some k => both k
  | none => 0

/-- How many of each there are. -/
def Core.count (c : Core) : Hand → Nat
  | .ref k => (c.itable k).ref
  | .lock k => (c.itable k).locked.toNat

variable {α β : Type} {c : Core} {I J : Multiset Hand}

/-- A call may fail in any way. -/
abbrev T : Panic → Prop := fun _ => True

/-! ## Functions that leave them alone -/

/-- `m` changes no reference count and no lock. -/
def Keeps (m : M α) : Prop :=
  ∀ c, wp T m (fun _ c' => ∀ h, c'.count h = c.count h) c

namespace Keeps

theorem pure (a : α) : Keeps (Pure.pure a) := fun _ => wp_pure.mpr fun _ => rfl

theorem throw (e : Panic) : Keeps (MonadExcept.throw e : M α) := fun _ => wp_throw.mpr trivial

theorem bind {m : M α} {f : α → M β} (hm : Keeps m) (hf : ∀ a, Keeps (f a)) : Keeps (m >>= f) :=
  fun c => wp_bind.mpr <| (hm c).mono fun a c₁ h₁ => (hf a c₁).mono fun _ _ h₂ k =>
    (h₂ k).trans (h₁ k)

theorem ite {p : Prop} [Decidable p] {m m' : M α} (hm : Keeps m) (hm' : Keeps m') :
    Keeps (if p then m else m') := by
  split
  · exact hm
  · exact hm'

theorem when {p : Prop} [Decidable p] {m : M Unit} (hm : Keeps m) : Keeps (Hoare.when p m) :=
  ite hm (pure ())

theorem forM {γ : Type} {body : γ → M PUnit} (h : ∀ x, Keeps (body x)) (l : List γ) :
    Keeps (l.forM body) := by
  induction l with
  | nil => exact pure ()
  | cons x xs ih =>
    rw [List.forM_eq_forM, List.forM_cons]
    exact bind (h x) fun _ => ih

theorem get : Keeps (MonadState.get : M Core) := fun _ => wp_get.mpr fun _ => rfl

theorem setBuf (b : Nat) (v : Block) : Keeps (Fs.setBuf b v) := fun _ => wp_modify.mpr fun _ => rfl

theorem logWrite (b : Nat) : Keeps (Fs.logWrite b) := fun _ => wp_modify.mpr fun _ => rfl

theorem evict (b : Nat) : Keeps (Fs.evict b) := fun _ => wp_modify.mpr fun _ => rfl

theorem bread (b : Nat) : Keeps (Fs.bread b) := bind get fun _ => pure _

theorem inode (k : Nat) : Keeps (Fs.inode k) := bind get fun _ => pure _

theorem setInode (k : Nat) {f : Inode → Inode} (hf : ∀ ip, (f ip).ref = ip.ref ∧ (f ip).locked = ip.locked) :
    Keeps (Fs.setInode k f) := fun c => wp_modify.mpr fun h => by
  by_cases hk : h.slot = k
  · subst hk
    cases h with
    | ref | lock => simp [Core.count, Hand.slot, hf]
  · cases h with
    | ref j | lock j => simp [Core.count, show j ≠ k from hk]

theorem setDin (k : Nat) (f : Dinode → Dinode) : Keeps (Fs.setDin k f) := setInode k fun _ => ⟨rfl, rfl⟩

theorem ballocFrom (fuel b : Nat) : Keeps (Fs.ballocFrom fuel b) := by
  induction fuel generalizing b with
  | zero => exact throw _
  | succ fuel ih =>
    refine bind get fun c => ite (bind (bread _) fun bp => ?_) (throw _)
    split
    · exact bind (setBuf _ _) fun _ => bind (logWrite _) fun _ =>
        bind (bind (setBuf _ _) fun _ => logWrite _) fun _ => pure _
    · exact ih _

theorem balloc : Keeps Fs.balloc := bind get fun _ => ballocFrom _ _

theorem bfree (b : Nat) : Keeps (Fs.bfree b) :=
  bind get fun _ => bind (bread _) fun _ => ite (bind (setBuf _ _) fun _ => logWrite _) (throw _)

theorem iupdate (k : Nat) : Keeps (Fs.iupdate k) :=
  bind get fun _ => bind (inode _) fun _ => bind (bread _) fun _ => bind (setBuf _ _) fun _ => logWrite _

theorem itrunc (k : Nat) : Keeps (Fs.itrunc k) := by
  refine bind (bind (forM (fun i => ?_) _) fun _ => ?_) fun _ => bind (setDin _ _) fun _ => iupdate _
  · exact bind (inode _) fun _ => when (bind (bfree _) fun _ => setDin _ _)
  · exact bind (inode _) fun _ => when <| bind (bread _) fun _ =>
      bind (forM (fun _ => when (bfree _)) _) fun _ => bind (bfree _) fun _ => setDin _ _

theorem bmapSlot (k : Nat) (j : Fin (NDIRECT + 1)) : Keeps (Fs.bmapSlot k j) :=
  bind (inode _) fun _ => ite (bind balloc fun _ => bind (setDin _ _) fun _ => pure _) (pure _)

theorem bmapEntry (ind j : Nat) : Keeps (Fs.bmapEntry ind j) :=
  bind (bread _) fun _ =>
    ite (bind balloc fun _ => bind (setBuf _ _) fun _ => bind (logWrite _) fun _ => pure _) (pure _)

theorem bmap (k bn : Nat) : Keeps (Fs.bmap k bn) := by
  unfold Fs.bmap
  split
  · exact bmapSlot _ _
  · split
    · exact bind (bmapSlot _ _) fun _ => bmapEntry _ _
    · exact throw _

theorem readiLoop (k : Nat) (ok : Nat → Nat → Bool) (n fuel tot off : Nat) :
    Keeps (Fs.readiLoop k ok n fuel tot off) := by
  induction fuel generalizing tot off with
  | zero => exact pure _
  | succ fuel ih =>
    exact ite (bind (bmap _ _) fun _ => bind (bread _) fun _ =>
      ite (bind (ih _ _) fun _ => pure _) (pure _)) (pure _)

theorem readi (k : Nat) (ok : Nat → Nat → Bool) (off n : Nat) : Keeps (Fs.readi k ok off n) :=
  bind (inode _) fun _ => ite (pure _) (readiLoop _ _ _ _ _ _)

theorem writeiLoop (k : Nat) (src : Nat → Option UInt8) (n fuel tot off : Nat) :
    Keeps (Fs.writeiLoop k src n fuel tot off) := by
  induction fuel generalizing tot off with
  | zero => exact pure _
  | succ fuel ih =>
    exact ite (bind (bmap _ _) fun _ => bind (bread _) fun _ => bind (setBuf _ _) fun _ =>
      ite (bind (logWrite _) fun _ => ih _ _) (pure _)) (pure _)

theorem writei (k : Nat) (src : Nat → Option UInt8) (off n : Nat) : Keeps (Fs.writei k src off n) :=
  bind (inode _) fun _ => ite (pure _) <| ite (pure _) <| bind (writeiLoop _ _ _ _ _ _) fun _ =>
    bind (inode _) fun _ => bind (when (setDin _ _)) fun _ => bind (iupdate _) fun _ => pure _

theorem scanLoop (k : Nat) (err : Panic) (stop : Dirent → Bool) (fuel off : Nat) :
    Keeps (Fs.scanLoop k err stop fuel off) := by
  induction fuel generalizing off with
  | zero => exact pure _
  | succ fuel ih =>
    refine bind (inode _) fun _ => ite (bind (readi _ _ _ _) fun r => ?_) (pure _)
    cases r with
    | none => exact throw _
    | some l => exact ite (throw _) (ite (pure _) (ih _))

theorem scan (k : Nat) (err : Panic) (stop : Dirent → Bool) (off : Nat) :
    Keeps (Fs.scan k err stop off) := bind (inode _) fun _ => scanLoop _ _ _ _ _

theorem isdirempty (dp : Nat) : Keeps (Fs.isdirempty dp) := bind (scan _ _ _ _) fun _ => pure _

end Keeps

/-! ## What a function holds before and after -/

/-- `I` are all pointers to entries of the inode table, and the locks of those that are locked. -/
abbrev Refs (c : Core) (I : Multiset Hand) : Prop := RefCount (fun h => h.slot < NINODE) c.count I

/-- `m` takes `I` and returns with `O`. -/
def Held (I : Multiset Hand) (m : M α) (O : α → Multiset Hand) : Prop :=
  ∀ c J, Refs c (I + J) → wp T m (fun a c' => Refs c' (O a + J)) c

namespace Held

variable {m : M α} {f : α → M β} {O : α → Multiset Hand} {O' : β → Multiset Hand}

theorem done {a : α} (h : I = O a) : Held I (Pure.pure a) O := fun _ _ hRefs =>
  wp_pure.mpr (h ▸ hRefs)

theorem throw (e : Panic) : Held I (MonadExcept.throw e) O := fun _ _ _ => wp_throw.mpr trivial

theorem ite {p : Prop} [Decidable p] {m' : M α} (hm : Held I m O) (hm' : Held I m' O) :
    Held I (if p then m else m') O := by
  split
  · exact hm
  · exact hm'

theorem when {p : Prop} [Decidable p] {m : M Unit} {O : Unit → Multiset Hand} (hm : Held I m O)
    (hI : I = O ()) : Held I (Hoare.when p m) O :=
  ite hm (done hI)

/-- `m` works with the part `I` of the references. -/
theorem frame {I₀ : Multiset Hand} {O₀ : α → Multiset Hand} (hm : Held I m O) (hI : I₀ = I + J)
    (hO : ∀ a, O a + J = O₀ a) : Held I₀ m O₀ := fun c K hRefs => by
  rw [hI, add_assoc] at hRefs
  refine (hm c _ hRefs).mono fun a c' hRefs' => ?_
  rwa [← hO, add_assoc]

theorem seq {I₀ : Multiset Hand} (hm : Held I m O) (hI : I₀ = I + J)
    (hf : ∀ a, Held (O a + J) (f a) O') : Held I₀ (m >>= f) O' := fun c K hRefs => by
  rw [hI, add_assoc] at hRefs
  refine wp_bind.mpr ((hm c _ hRefs).mono fun a c' hRefs' => hf a c' K ?_)
  rwa [add_assoc]

theorem bind (hm : Held I m O) (hf : ∀ a, Held (O a) (f a) O') : Held I (m >>= f) O' :=
  hm.seq (add_zero I).symm fun a => by
    rw [add_zero]
    exact hf a

theorem keeps (hm : Keeps m) : Held I m (fun _ => I) := fun c _ hRefs =>
  (hm c).mono fun _ _ hSame => hRefs.congr fun k _ => hSame k

theorem keep (hm : Keeps m) (hf : ∀ a, Held I (f a) O') : Held I (m >>= f) O' := bind (keeps hm) hf

end Held

theorem count_setInode {k : Nat} (ip : Inode) (h : Hand) :
    Core.count { c with itable := upd c.itable k ip } h =
      upd (upd c.count (.ref k) ip.ref) (.lock k) ip.locked.toNat h := by
  cases h with
  | ref j =>
    rw [upd_of_ne (ref_ne_lock j k)]
    by_cases hj : j = k
    · rw [hj, upd_self]
      simp [Core.count]
    · rw [upd_of_ne fun hEq => hj (Hand.ref.inj hEq)]
      simp [Core.count, hj]
  | lock j =>
    by_cases hj : j = k
    · rw [hj, upd_self]
      simp [Core.count]
    · rw [upd_of_ne fun hEq => hj (Hand.lock.inj hEq), upd_of_ne (ref_ne_lock k j).symm]
      simp [Core.count, hj]

/-- The reference count of an entry has changed. -/
theorem refs_setRef {k : Nat} {ip : Inode} (h : RefCount (fun h => h.slot < NINODE) (upd c.count (.ref k) ip.ref) I)
    (hLock : ip.locked = (c.itable k).locked) : Refs { c with itable := upd c.itable k ip } I :=
  h.congr fun h' _ => by
    rw [count_setInode, hLock]
    by_cases hh : h' = .lock k
    · rw [hh, upd_self, upd_of_ne (ref_ne_lock k k).symm]
      rfl
    · rw [upd_of_ne hh]

/-- The lock of an entry has changed. -/
theorem refs_setLock {k : Nat} {ip : Inode}
    (h : RefCount (fun h => h.slot < NINODE) (upd c.count (.lock k) ip.locked.toNat) I)
    (hRef : ip.ref = (c.itable k).ref) : Refs { c with itable := upd c.itable k ip } I :=
  h.congr fun h' _ => by
    have hSame : upd c.count (.ref k) ip.ref = c.count := by
      rw [hRef]
      exact upd_eta c.count (.ref k)
    rw [count_setInode, hSame]

theorem held_iget (dev inum : Nat) : Held 0 (iget dev inum) fun k => {.ref k} := fun c J hRefs => by
  rw [zero_add] at hRefs
  rw [iget, wp_bind, wp_get]
  split
  · rename_i k hFind
    have hk : (Hand.ref k).slot < NINODE := List.mem_range.mp (List.mem_of_find?_eq_some hFind)
    rw [wp_bind]
    exact wp_modify.mpr (wp_pure.mpr (refs_setRef (hRefs.take hk) rfl))
  · split
    · rename_i k hFind
      have hk : (Hand.ref k).slot < NINODE := List.mem_range.mp (List.mem_of_find?_eq_some hFind)
      have hZero : (c.itable k).ref = 0 := by simpa using List.find?_some hFind
      have hTake := hRefs.take hk
      rw [show c.count (.ref k) = 0 from hZero] at hTake
      rw [wp_bind]
      exact wp_modify.mpr (wp_pure.mpr (refs_setRef hTake rfl))
    · exact wp_throw.mpr trivial

theorem held_idup (k : Nat) : Held {.ref k} (idup k) fun j => {.ref j} + {.ref k} := fun c J hRefs => by
  rw [idup, wp_bind]
  refine wp_modify.mpr (wp_pure.mpr (refs_setRef ?_ rfl))
  rw [add_assoc]
  exact hRefs.take hRefs.ok_head

/-- `ref--` -/
theorem held_drop (k : Nat) : Held {.ref k} (setInode k fun ip => { ip with ref := ip.ref - 1 }) fun _ => 0 :=
  fun c J hRefs => wp_modify.mpr <| refs_setRef (by
    rw [zero_add]
    exact hRefs.drop) rfl

theorem held_acquiresleep (k : Nat) : Held {.ref k} (acquiresleep k) fun _ => both k := fun c J hRefs => by
  rw [acquiresleep, wp_bind, inode, wp_bind, wp_get, wp_pure, wp_bind, wp_when]
  refine ⟨fun _ => wp_throw.mpr trivial, fun hFree => wp_modify.mpr (refs_setLock ?_ rfl)⟩
  have hZero : c.count (.lock k) = 0 := by simpa [Core.count] using hFree
  have hTake := hRefs.take (show (Hand.lock k).slot < NINODE from hRefs.ok_head)
  rw [hZero] at hTake
  rw [add_assoc]
  exact hTake

theorem held_releasesleep (k : Nat) : Held {.lock k} (releasesleep k) fun _ => 0 := fun c J hRefs =>
  wp_modify.mpr <| refs_setLock (by
    have hOne : c.count (.lock k) - 1 = 0 := by
      have hLe : c.count (.lock k) ≤ 1 := Bool.toNat_le _
      omega
    have hDrop := hRefs.drop
    rw [hOne] at hDrop
    rw [zero_add]
    exact hDrop) rfl

theorem held_ilock (k : Nat) : Held {.ref k} (ilock k) fun _ => both k :=
  .keep (.inode _) fun _ => .keep (.when (.throw _)) fun _ => .bind (held_acquiresleep k) fun _ =>
    .keep (.inode _) fun _ => .keeps <| .when <| .bind .get fun _ => .bind (.setInode k fun _ => ⟨rfl, rfl⟩) fun _ =>
      .when (.throw _)

theorem held_iunlock (k : Nat) : Held {.lock k} (iunlock k) fun _ => 0 :=
  .keep (.inode _) fun _ => .keep (.when (.throw _)) fun _ => held_releasesleep k

theorem held_iput (k : Nat) : Held {.ref k} (iput k) fun _ => 0 := by
  refine .keep (.inode k) fun ip => .bind (.when ?_ rfl) fun _ => held_drop k
  refine .bind (held_acquiresleep k) fun _ => .keep (.itrunc k) fun _ => .keep (.setDin k _) fun _ =>
    .keep (.iupdate k) fun _ => .keep (.setInode k fun _ => ⟨rfl, rfl⟩) fun _ => ?_
  exact (held_releasesleep k).frame rfl fun _ => zero_add _

theorem held_iunlockput (k : Nat) : Held (both k) (iunlockput k) fun _ => 0 :=
  (held_iunlock k).seq rfl fun _ => by
    rw [zero_add]
    exact held_iput k

theorem held_ialloc (dev : Nat) (type : BitVec 16) : Held 0 (ialloc dev type) fun k => {.ref k} := by
  refine .keep .get fun c => ?_
  split
  · exact .keep (.bread _) fun _ => .keep (.setBuf _ _) fun _ => .keep (.logWrite _) fun _ =>
      held_iget dev _
  · exact .throw _

theorem held_dirlookup (dp : Nat) (name : List UInt8) :
    Held 0 (dirlookup dp name) fun r => ptr (r.map Prod.fst) := by
  refine .keep (.inode dp) fun ip => .keep (.when (.throw _)) fun _ => .keep (.scan _ _ _ _) fun r => ?_
  obtain ⟨off, _ | de⟩ := r
  · exact .done rfl
  · exact .keep (.inode dp) fun _ => .bind (held_iget _ _) fun _ => .done rfl

theorem held_dirlink (dp : Nat) (name : List UInt8) (inum : Nat) :
    Held 0 (dirlink dp name inum) fun _ => 0 := by
  refine .bind (held_dirlookup dp name) fun r => ?_
  cases r with
  | some r => exact .bind (held_iput r.1) fun _ => .done rfl
  | none =>
    refine .keep (.scan _ _ _ _) fun _ => .keep (.writei _ _ _ _) fun _ => ?_
    exact .keep (.when (.throw _)) fun _ => .done rfl

/-! ## Paths and calls -/

theorem skipelem_length {path name path' name' : List UInt8}
    (h : skipelem path name = some (path', name')) : path'.length < path.length := by
  have hStart := (List.dropWhile_suffix (l := path) fun b => decide (b = slash)).length_le
  have hFirst := List.head?_dropWhile_not (fun b => decide (b = slash)) path
  simp only [skipelem] at h
  split at h
  · cases h
  · rename_i hne
    cases h
    obtain ⟨b, rest, hRest⟩ := List.exists_cons_of_ne_nil hne
    have hb : b ≠ slash := by simpa [hRest] using hFirst
    rw [hRest] at hStart ⊢
    rw [List.dropWhile_cons_of_pos (by simp [hb])]
    have h₁ := (List.dropWhile_suffix (l := rest) fun b => decide (b ≠ slash)).length_le
    have h₂ := (List.dropWhile_suffix (l := rest.dropWhile fun b => decide (b ≠ slash))
      fun b => decide (b = slash)).length_le
    rw [List.length_cons] at hStart
    omega

theorem held_namexLoop (parent : Bool) {fuel ip : Nat} {path name : List UInt8} (hFuel : path.length < fuel) :
    Held {.ref ip} (namexLoop parent fuel ip path name) fun r => ptr r.1 := by
  induction fuel generalizing ip path name with
  | zero => exact absurd hFuel (Nat.not_lt_zero _)
  | succ fuel ih =>
    rw [namexLoop]
    split
    · rename_i path' name hSkip
      have hLess := skipelem_length hSkip
      refine (held_ilock ip).bind fun _ => .keep (.inode ip) fun _ => .ite ?_ (.ite ?_ ?_)
      · exact (held_iunlockput ip).bind fun _ => .done rfl
      · exact (held_iunlock ip).seq rfl fun _ => .done (zero_add _)
      · refine (held_dirlookup ip name).seq (zero_add _).symm fun r => ?_
        cases r with
        | none => exact (held_iunlockput ip).seq (add_comm _ _) fun _ => .done rfl
        | some r =>
          refine (held_iunlockput ip).seq (add_comm _ _) fun _ => ?_
          rw [zero_add]
          exact ih (by omega)
    · refine .ite ?_ (.done rfl)
      exact .bind (held_iput ip) fun _ => .done rfl

/-- A process that looks up a path holds its current directory. -/
theorem held_namex (cwd : Nat) (path : List UInt8) (parent : Bool) :
    Held {.ref cwd} (namex cwd path parent) fun r => ptr r.1 + {.ref cwd} := by
  have hLoop (ip : Nat) : Held ({.ref ip} + {.ref cwd})
      (namexLoop parent (path.length + 1) ip path (List.replicate DIRSIZ 0))
      fun r => ptr r.1 + {.ref cwd} :=
    (held_namexLoop parent (Nat.lt_succ_self path.length)).frame rfl fun _ => rfl
  rw [namex]
  refine .ite ?_ ?_
  · exact (held_iget _ _).seq (zero_add _).symm hLoop
  · exact (held_idup cwd).bind hLoop

theorem held_namei (cwd : Nat) (path : List UInt8) :
    Held {.ref cwd} (namei cwd path) fun r => ptr r + {.ref cwd} :=
  (held_namex cwd path false).bind fun _ => .done rfl

/-- The root directory is found whatever the disk holds. -/
theorem namei_slash (cwd : Nat) : namei cwd [slash] = iget ROOTDEV ROOTINO >>= fun ip => pure (some ip) := by
  have hLoop : ∀ ip, namexLoop false ([slash].length + 1) ip [slash] (List.replicate DIRSIZ 0) =
      pure (some ip, List.replicate DIRSIZ 0) := fun ip => rfl
  rw [namei, namex, List.head?_cons, if_pos rfl]
  simp only [hLoop, bind_assoc, pure_bind]

theorem held_link (cwd : Nat) (old new : List UInt8) :
    Held {.ref cwd} (link cwd old new) fun _ => {.ref cwd} := by
  refine (held_namei cwd old).bind fun r => ?_
  cases r with
  | none => exact .done (zero_add _)
  | some ip =>
    refine (held_ilock ip).seq rfl fun _ => .keep (.inode ip) fun _ => .ite ?_ ?_
    · exact (held_iunlockput ip).seq rfl fun _ => .done (zero_add _)
    · refine .keep (.setDin ip _) fun _ => .keep (.iupdate ip) fun _ => ?_
      refine (held_iunlock ip).seq (add_assoc _ _ _) fun _ => ?_
      rw [zero_add]
      refine (held_namex cwd new true).seq (add_comm _ _) fun r => ?_
      obtain ⟨dp?, name⟩ := r
      -- the end that all branches share
      extract_lets jp
      have hEnd (linked : Bool) : Held ({.ref ip} + {.ref cwd}) (jp linked) fun _ => {.ref cwd} := by
        refine .ite ?_ ?_
        · exact (held_iput ip).seq rfl fun _ => .done (zero_add _)
        · refine (held_ilock ip).seq rfl fun _ => .keep (.setDin ip _) fun _ => .keep (.iupdate ip) fun _ => ?_
          exact (held_iunlockput ip).seq rfl fun _ => .done (zero_add _)
      cases dp? with
      | none => exact (hEnd false).frame (J := 0) (by simp [add_comm]) fun _ => add_zero _
      | some dp =>
        have hPut (linked : Bool) : Held (both dp + ({.ref cwd} + {.ref ip})) (do iunlockput dp; jp linked)
            fun _ => {.ref cwd} := by
          refine (held_iunlockput dp).seq rfl fun _ => ?_
          rw [zero_add, add_comm]
          exact hEnd linked
        refine (held_ilock dp).seq (add_assoc _ _ _) fun _ => .keep (.inode dp) fun _ => .keep (.inode ip) fun _ =>
          .ite (hPut false) ?_
        refine .keep (.inode ip) fun _ => (held_dirlink _ _ _).seq (zero_add _).symm fun _ => ?_
        rw [zero_add]
        exact .ite (hPut true) (hPut false)

theorem held_unlink (cwd : Nat) (path : List UInt8) :
    Held {.ref cwd} (unlink cwd path) fun _ => {.ref cwd} := by
  refine (held_namex cwd path true).bind fun r => ?_
  obtain ⟨_ | dp, name⟩ := r
  · exact .done (zero_add _)
  refine (held_ilock dp).seq rfl fun _ => .ite ?_ ?_
  · exact (held_iunlockput dp).seq rfl fun _ => .done (zero_add _)
  refine (held_dirlookup dp name).seq (zero_add _).symm fun r => ?_
  obtain _ | ⟨ip, off⟩ := r
  · exact (held_iunlockput dp).seq (zero_add _) fun _ => .done (zero_add _)
  refine (held_ilock ip).seq rfl fun _ => .keep (.inode ip) fun _ => .keep (.when (.throw _)) fun _ =>
    .keep (.inode ip) fun _ => ?_
  extract_lets type jp
  have hEnd (busy : Bool) : Held (both ip + (both dp + {.ref cwd})) (jp busy) fun _ => {.ref cwd} := by
    refine .ite ?_ ?_
    · refine (held_iunlockput ip).seq rfl fun _ => (held_iunlockput dp).seq (zero_add _) fun _ => ?_
      exact .done (zero_add _)
    · refine .keep (.writei _ _ _ _) fun _ => .keep (.when (.throw _)) fun _ =>
        .keep (.when (.bind (.setDin dp _) fun _ => .iupdate dp)) fun _ => ?_
      refine (held_iunlockput dp).seq (add_left_comm _ _ _) fun _ => .keep (.setDin ip _) fun _ =>
        .keep (.iupdate ip) fun _ => ?_
      exact (held_iunlockput ip).seq (zero_add _) fun _ => .done (zero_add _)
  exact .ite (.keep (.bind (.isdirempty ip) fun _ => .pure _) hEnd) (hEnd false)

/-- `create` returns an inode that it has locked. -/
theorem held_create (cwd : Nat) (path : List UInt8) (type major minor : BitVec 16) :
    Held {.ref cwd} (create cwd path type major minor) fun r => locked r + {.ref cwd} := by
  refine (held_namex cwd path true).bind fun r => ?_
  obtain ⟨_ | dp, name⟩ := r
  · exact .done rfl
  refine (held_ilock dp).seq rfl fun _ => (held_dirlookup dp name).seq (zero_add _).symm fun r => ?_
  obtain _ | ⟨ip, off⟩ := r
  · refine .keep (.inode dp) fun _ => (held_ialloc _ _).seq rfl fun ip => (held_ilock ip).seq rfl fun _ => ?_
    refine .keep (.setDin ip _) fun _ => .keep (.iupdate ip) fun _ => ?_
    refine Held.bind (O := fun _ => both ip + (both dp + {.ref cwd})) (.when ?_ rfl) fun _ => .keep (.inode ip) fun _ => ?_
    · refine .keep (.setDin dp _) fun _ => .keep (.iupdate dp) fun _ => .keep (.inode ip) fun _ => ?_
      refine (held_dirlink ip _ _).seq (zero_add _).symm fun _ => .keep (.when (.throw _)) fun _ =>
        .keep (.inode dp) fun _ => ?_
      refine (held_dirlink ip _ _).seq rfl fun _ => ?_
      rw [zero_add]
      exact .keeps (.when (.throw _))
    · refine (held_dirlink dp _ _).seq (zero_add _).symm fun _ => .keep (.when (.throw _)) fun _ => ?_
      rw [zero_add]
      exact (held_iunlockput dp).seq (add_left_comm _ _ _) fun _ => .done (zero_add _)
  · refine (held_iunlockput dp).seq (add_left_comm _ _ _) fun _ => (held_ilock ip).seq (zero_add _) fun _ =>
      .keep (.inode ip) fun _ => .ite (.done rfl) ?_
    exact (held_iunlockput ip).seq rfl fun _ => .done rfl

theorem held_openPath (cwd : Nat) (path : List UInt8) (omode : BitVec 32) :
    Held {.ref cwd} (openPath cwd path omode) fun r => locked r + {.ref cwd} := by
  refine .ite (held_create _ _ _ _ _) ((held_namei cwd path).bind fun r => ?_)
  cases r with
  | none => exact .done rfl
  | some ip =>
    refine (held_ilock ip).seq rfl fun _ => .keep (.inode ip) fun _ => .ite ?_ (.done rfl)
    exact (held_iunlockput ip).seq rfl fun _ => .done rfl

theorem held_openInode (cwd : Nat) (path : List UInt8) (omode : BitVec 32) :
    Held {.ref cwd} (openInode cwd path omode) fun r => locked r + {.ref cwd} := by
  refine (held_openPath cwd path omode).bind fun r => ?_
  cases r with
  | none => exact .done rfl
  | some ip =>
    refine .keep (.inode ip) fun _ => .ite ?_ (.done rfl)
    exact (held_iunlockput ip).seq rfl fun _ => .done rfl

theorem held_make (cwd : Nat) (path : List UInt8) (type major minor : BitVec 16) :
    Held {.ref cwd} (make cwd path type major minor) fun _ => {.ref cwd} := by
  refine (held_create cwd path type major minor).bind fun r => ?_
  cases r with
  | none => exact .done (zero_add _)
  | some ip => exact (held_iunlockput ip).seq rfl fun _ => .done (zero_add _)

end Xv6.Fs
