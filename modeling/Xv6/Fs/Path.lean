import Xv6.Fs.Dir
import Xv6.Fs.Refs

/-!
# xv6 — path lookup

What `namex` does to the file system: nothing, but for inodes that were waiting for their last pointer to go
(`Lapse`). Two kinds of specification are proved at once. Where every panic is admitted, little need be
known of the directories (`Dirs`). Where it is not, names must lead somewhere (`Firm`).
-/

namespace Xv6.Fs

open ByteBuf Hoare Owner

variable {E : Panic → Prop} {c c' : Core} {sb : Superblock} {S : Set Nat} {D D' : Nat → Dinode}
  {N N' : Nat → Node} {R K : Multiset Ref} {L : Finset Nat} {r : Ref}

/-- The panics of a call that runs out of something, or waits for itself. -/
structure Lax (E : Panic → Prop) : Prop where
  blocked : E .blocked
  inodes  : E .igetNoInodes
  blocks  : E .ballocOutOfBlocks
  ialloc  : E .iallocNoInodes

/-- Directories without holes, whose entries are inode numbers. -/
structure Dirs (sb : Superblock) (N : Nat → Node) : Prop where
  holes : ∀ i, (N i).type = T_DIR → (N i).holes = ∅
  range : ∀ i, (N i).type = T_DIR → ∀ j < (N i).slots, (ent (N i) j).inum < sb.ninodes

/-- From the root, names lead to inodes `P`, which exist; those without a name are pointed to. -/
structure Firm (K : Multiset Ref) (P : Nat → Prop) (N : Nat → Node) : Prop where
  bound : Bound K N
  root  : P ROOTINO
  typed : ∀ i, P i → (N i).type ≠ 0
  whole : ∀ i, P i → (N i).type = T_DIR → (N i).size % 16 = 0
  next  : ∀ i, P i → (N i).type = T_DIR → ∀ j < (N i).slots, (ent (N i) j).inum ≠ 0 → P (ent (N i) j).inum

/-- The same, or anything may happen. -/
def Ok (E : Panic → Prop) (p : Prop) : Prop := (∀ e, E e) ∨ p

theorem Ok.imp {p q : Prop} (h : Ok E p) (f : p → q) : Ok E q := Or.imp_right f h

theorem Ok.and {p q : Prop} (h : Ok E p) (h' : Ok E q) : Ok E (p ∧ q) :=
  h.elim .inl fun hp => h'.imp fun hq => ⟨hp, hq⟩

theorem Ok.error {p : Prop} (h : Ok E p) {e : Panic} (hNot : ¬ p) : E e :=
  Or.elim h (fun hAll => hAll e) fun hp => absurd hp hNot

theorem Reaped.dir (h : Reaped K N N') {i : Nat} (hType : (N' i).type = T_DIR) : N' i = N i :=
  (h i).resolve_right fun hFreed => by
    rw [hFreed.1] at hType
    exact absurd hType (by decide)

theorem Dirs.reaped (h : Dirs sb N) (hReaped : Reaped K N N') : Dirs sb N' where
  holes i hType := by
    have hEq := hReaped.dir hType
    rw [hEq] at hType ⊢
    exact h.holes i hType
  range i hType := by
    have hEq := hReaped.dir hType
    rw [hEq] at hType ⊢
    exact h.range i hType

variable {P : Nat → Prop}

theorem Ok.reaped (h : Ok E (Firm K P N)) (hReaped : Reaped K N N') : Ok E (Firm K P N') :=
  h.imp fun h => hReaped.eq h.bound ▸ h

/-- The found entry is an inode number. -/
theorem Dirs.lookup (h : Dirs sb N) {i : Nat} (hType : (N i).type = T_DIR) {name : List UInt8} (j : Nat)
    (hFound : lookup (N i) name = some j) : (ent (N i) j).inum < sb.ninodes :=
  h.range i hType j (find_eq_some.mp hFound).2.2.1

theorem lookup_ne_zero {n : Node} {name : List UInt8} {j : Nat} (h : lookup n name = some j) :
    (ent n j).inum ≠ 0 ∧ j < n.slots := by
  have hFound := find_eq_some.mp h
  have hStop := hFound.1
  rw [isEntry, decide_eq_true_eq] at hStop
  exact ⟨hStop.1, hFound.2.2.1⟩

/-! ## namex -/

/-- What a lookup leaves: a pointer to an inode, or nothing. -/
def Found (E : Panic → Prop) (sb : Superblock) (S : Set Nat) (K : Multiset Ref) (P : Nat → Prop) (parent : Bool)
    (D : Nat → Dinode) (N : Nat → Node) (ret : Option Nat) (c' : Core) : Prop :=
  ∃ D' N', Lapse K D N D' N' ∧ (ret = none ∧ At sb S D' N' K ∅ c' ∨
    ∃ k i, ret = some k ∧ At sb S D' N' (⟨k, i⟩ ::ₘ K) ∅ c' ∧ (parent = true → (N' i).type = T_DIR) ∧ Ok E (P i))

theorem namexLoop_at (hE : Lax E) (parent : Bool) {fuel : Nat} {path name : List UInt8} (hDirs : Dirs sb N)
    (hFirm : Ok E (Firm K P N)) (hFuel : path.length < fuel) (h : At sb S D N (r ::ₘ K) ∅ c)
    (hGood : Ok E (P r.inum)) :
    wp E (namexLoop parent fuel r.slot path name) (fun ret c' => Found E sb S K P parent D N ret.1 c') c := by
  induction fuel generalizing c D N r path name with
  | zero => exact absurd hFuel (Nat.not_lt_zero _)
  | succ fuel ih =>
    have hr : r ∈ r ::ₘ K := Multiset.mem_cons_self r K
    have hErase : (insert r.slot (∅ : Finset Nat)).erase r.slot = ∅ := Finset.erase_insert (Finset.notMem_empty _)
    have hIn : r.slot ∈ insert r.slot (∅ : Finset Nat) := Finset.mem_insert_self _ _
    rw [namexLoop]
    split
    · rename_i path' name' hSkip
      have hLess := skipelem_length hSkip
      rw [wp_bind]
      refine (ilock_at (h.mono Set.sdiff_subset) hr (fun hLock => absurd hLock (Finset.notMem_empty _))
        fun h0 => (hFirm.and hGood).error fun hF => hF.1.typed _ hF.2 h0).mono ?_
      rintro _ c₁ ⟨-, h₁⟩
      -- unlock the directory and give up
      have hNone : wp E (do iunlockput r.slot; return (none, name'))
          (fun ret c' => Found E sb S K P parent D N ret.1 c') c₁ := by
        rw [wp_bind]
        refine (iunlockput_at h₁ hIn).mono ?_
        rintro _ c' ⟨D', N', hLapse, h'⟩
        rw [hErase] at h'
        exact wp_pure.mpr ⟨D', N', hLapse, .inl ⟨rfl, h'⟩⟩
      rw [wp_bind, wp_inode, h₁.type hr hIn, wp_ite]
      refine ⟨fun _ => hNone, fun hDir => ?_⟩
      rw [not_not] at hDir
      rw [wp_ite]
      constructor
      · intro _
        rw [wp_bind]
        refine (iunlock_at h₁ hr hIn).mono fun _ c' h' => ?_
        rw [hErase] at h'
        exact wp_pure.mpr ⟨D, N, .refl K D N, .inr ⟨_, _, rfl, h', fun _ => hDir, hGood⟩⟩
      · intro _
        rw [wp_bind]
        refine (dirlookup_at h₁ hr hIn hDir (.of_holes (hDirs.holes _ hDir) _ _)
          (fun hOdd => (hFirm.and hGood).error fun hF => hOdd (hF.1.whole _ hF.2 hDir)) (hDirs.lookup hDir)
          fun _ => hE.inodes).mono ?_
        rintro ret c₂ (⟨j, k, hFound, rfl, h₂, -⟩ | ⟨-, rfl, rfl⟩)
        · show wp E (do iunlockput r.slot; namexLoop parent fuel k path' name') _ c₂
          rw [Multiset.cons_swap] at h₂
          rw [wp_bind]
          refine (iunlockput_at h₂ hIn).mono ?_
          rintro _ c₃ ⟨D₁, N₁, hLapse, h₃⟩
          rw [hErase] at h₃
          have hLapse' := hLapse.mono (Multiset.subset_cons K _)
          obtain ⟨hNe, hj⟩ := lookup_ne_zero hFound
          have hNext : Ok E (P (ent (N r.inum) j).inum) :=
            (hFirm.and hGood).imp fun hF => hF.1.next _ hF.2 hDir j hj hNe
          refine (ih (hDirs.reaped hLapse.reaped) (hFirm.reaped hLapse'.reaped) (by omega) h₃ hNext).mono ?_
          rintro ret c' ⟨D', N', hLapse₂, hRet⟩
          exact ⟨D', N', hLapse'.trans hLapse₂, hRet⟩
        · exact hNone
    · rw [wp_ite]
      constructor
      · intro _
        rw [wp_bind]
        refine (iput_at h fun _ => Finset.notMem_empty _).mono ?_
        rintro _ c' ⟨D', N', hLapse, h'⟩
        exact wp_pure.mpr ⟨D', N', hLapse, .inl ⟨rfl, h'⟩⟩
      · intro hNot
        exact wp_pure.mpr ⟨D, N, .refl K D N, .inr ⟨_, _, rfl, h, fun hP => absurd hP hNot, hGood⟩⟩

theorem namex_at (hE : Lax E) (parent : Bool) {path : List UInt8} (hDirs : Dirs sb N) (hFirm : Ok E (Firm K P N))
    (h : At sb S D N K ∅ c) (hr : r ∈ K) (hGood : Ok E (P r.inum)) (hRoot : ROOTINO < sb.ninodes) :
    wp E (namex r.slot path parent) (fun ret c' => Found E sb S K P parent D N ret.1 c') c := by
  rw [namex, wp_ite]
  constructor
  · intro _
    rw [wp_bind]
    refine (iget_at h ⟨Nat.le_refl 1, hRoot⟩ fun _ => hE.inodes).mono ?_
    rintro k c₁ ⟨h₁, -⟩
    exact namexLoop_at (r := ⟨k, ROOTINO⟩) hE parent hDirs hFirm (Nat.lt_succ_self _) h₁ (hFirm.imp (·.root))
  · intro _
    rw [wp_bind]
    refine (idup_at h hr).mono ?_
    rintro _ c₁ ⟨rfl, h₁⟩
    exact namexLoop_at hE parent hDirs hFirm (Nat.lt_succ_self _) h₁ hGood

/-! ## Names in the root directory -/

variable {path buf : List UInt8}

/-- The root directory is found and locked. -/
theorem namex_root (parent : Bool) (cwd : Nat) (hAbs : path.head? = some slash)
    (hSkip : skipelem path (List.replicate DIRSIZ 0) = some ([], buf)) (h : At sb S D N R ∅ c)
    (hRoot : ROOTINO < sb.ninodes) (hDir : (N ROOTINO).type = T_DIR) (hCard : R.card < NINODE)
    {Q : Option Nat × List UInt8 → Core → Prop}
    (hQ : ∀ k c₁, At sb S D N (⟨k, ROOTINO⟩ ::ₘ R) {k} c₁ →
      wp E (if parent = true then do
            iunlock k
            return (some k, buf)
          else do
            match ← dirlookup k buf with
            | none =>
              iunlockput k
              return (none, buf)
            | some (next, _) =>
              iunlockput k
              return (some next, buf)) Q c₁) :
    wp E (namex cwd path parent) Q c := by
  obtain ⟨b, rest, rfl⟩ : ∃ b rest, path = b :: rest := by
    cases path with
    | nil => cases hAbs
    | cons b rest => exact ⟨b, rest, rfl⟩
  rw [namex, if_pos hAbs, wp_bind]
  refine (iget_at h ⟨Nat.le_refl 1, hRoot⟩ fun hFull => absurd hCard (Nat.not_lt.mpr hFull)).mono ?_
  rintro k c₁ ⟨h₁, -⟩
  have hr : (⟨k, ROOTINO⟩ : Ref) ∈ ⟨k, ROOTINO⟩ ::ₘ R := Multiset.mem_cons_self _ _
  show wp E (namexLoop parent (rest.length + 1 + 1) k (b :: rest) (List.replicate DIRSIZ 0)) Q c₁
  rw [namexLoop, hSkip]
  dsimp only
  rw [wp_bind]
  refine (ilock_at (r := ⟨k, ROOTINO⟩) (h₁.mono Set.sdiff_subset) hr
    (fun hLock => absurd hLock (Finset.notMem_empty _)) fun h0 => ?_).mono ?_
  · rw [show (N (Ref.inum ⟨k, ROOTINO⟩)).type = T_DIR from hDir] at h0
    exact absurd h0 (by decide)
  rintro _ c₂ ⟨-, h₂⟩
  have hIn : k ∈ insert k (∅ : Finset Nat) := Finset.mem_insert_self _ _
  have hType : (c₂.itable k).din.type = T_DIR := (h₂.type hr hIn).trans hDir
  have hNext := hQ k c₂ h₂
  rw [wp_bind, wp_inode, hType, if_neg (not_not.mpr rfl)]
  cases parent with
  | true =>
    rw [if_pos rfl] at hNext
    rw [if_pos ⟨rfl, rfl⟩]
    exact hNext
  | false =>
    rw [if_neg Bool.false_ne_true, wp_bind] at hNext
    rw [if_neg (fun hBad => Bool.false_ne_true hBad.1), wp_bind]
    refine hNext.mono fun ret c₃ h₃ => ?_
    obtain _ | ⟨next, off⟩ := ret
    · exact h₃
    · exact h₃

theorem namei_root (cwd : Nat) {j : Nat} (hAbs : path.head? = some slash)
    (hSkip : skipelem path (List.replicate DIRSIZ 0) = some ([], buf)) (h : At sb S D N R ∅ c)
    (hRoot : ROOTINO < sb.ninodes) (hDir : (N ROOTINO).type = T_DIR) (hWhole : (N ROOTINO).size % 16 = 0)
    (hReached : Reached (N ROOTINO) (isEntry buf) 0) (hFound : lookup (N ROOTINO) buf = some j)
    (hRange : (ent (N ROOTINO) j).inum < sb.ninodes) (hBound : Bound R N) (hCard : R.card + 1 < NINODE) :
    wp E (namei cwd path) (fun ret c' => ∃ k, ret = some k ∧
      At sb S D N (⟨k, (ent (N ROOTINO) j).inum⟩ ::ₘ R) ∅ c') c := by
  rw [namei, wp_bind]
  refine namex_root false cwd hAbs hSkip h hRoot hDir (by omega) fun k c₁ h₁ => ?_
  have hr : (⟨k, ROOTINO⟩ : Ref) ∈ ⟨k, ROOTINO⟩ ::ₘ R := Multiset.mem_cons_self _ _
  rw [if_neg Bool.false_ne_true, wp_bind]
  refine (dirlookup_at h₁ hr (Finset.mem_singleton_self k) hDir hReached (fun hOdd => absurd hWhole hOdd)
    (fun j' hj' => ?_) fun hFull => ?_).mono ?_
  · rw [hFound] at hj'
    cases hj'
    exact hRange
  · rw [Multiset.card_cons] at hFull
    omega
  · rintro ret c₂ (⟨j', k', hj', rfl, h₂, -⟩ | ⟨hNone, -, -⟩)
    · rw [hFound] at hj'
      cases hj'
      rw [Multiset.cons_swap] at h₂
      show wp E (do iunlockput k; return (some k', buf)) _ c₂
      rw [wp_bind]
      refine (iunlockput_at (r := ⟨k, ROOTINO⟩) h₂ (Finset.mem_singleton_self k)).mono ?_
      rintro _ c' ⟨D', N', hLapse, h'⟩
      have hMore : Bound (⟨k', (ent (N ROOTINO) j).inum⟩ ::ₘ R) N := fun i hi => by
        obtain ⟨r, hr, hEq⟩ := hBound i hi
        exact ⟨r, Multiset.mem_cons_of_mem hr, hEq⟩
      rw [hLapse.reaped.eq hMore, hLapse.same hMore,
        show ({k} : Finset Nat).erase (Ref.slot ⟨k, ROOTINO⟩) = ∅ from Finset.erase_singleton k] at h'
      exact wp_pure.mpr (wp_pure.mpr ⟨k', rfl, h'⟩)
    · rw [show lookup (N (Ref.inum ⟨k, ROOTINO⟩)) buf = some j from hFound] at hNone
      cases hNone

end Xv6.Fs
