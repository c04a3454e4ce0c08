import Xv6.Fs.DirMap
import Xv6.Fs.Path
import Mathlib.Data.List.DropRight

/-!
# xv6 — what a path names

`namex` moves a cursor over the path and a pointer over the directories. Told by the whole path, it follows the components of
the path (`components`) through the directories, one lookup after the other (`resolve`).

* `skipelem_components`: one turn of the cursor takes the first component.
* `namex_resolves`: `namei` and `nameiparent` return what the path names, with one pointer to it, or nothing.
-/

namespace Xv6.Fs

open ByteBuf Hoare Owner

variable {E : Panic → Prop} {c c' : Core} {sb : Superblock} {S : Set Nat} {D : Nat → Dinode} {N : Nat → Node}
  {K : Multiset Ref} {r : Ref} {P : Nat → Prop}

/-! ## Components -/

/-- The names between the slashes of a path, cut to `DIRSIZ` bytes. -/
def components (path : List UInt8) : List (List UInt8) :=
  ((path.splitOn slash).filter (· ≠ [])).map (·.take DIRSIZ)

theorem components_nil : components [] = [] := rfl

theorem components_slash (path : List UInt8) : components (slash :: path) = components path := by
  rw [components, List.splitOn, List.splitOnP_cons_eq_if_modifyHead, if_pos (beq_self_eq_true slash)]
  rfl

theorem components_dropWhile (path : List UInt8) : components (path.dropWhile (· = slash)) = components path := by
  induction path with
  | nil => rfl
  | cons a path ih =>
    by_cases ha : a = slash
    · rw [List.dropWhile_cons_of_pos (by simpa using ha), ih, ha, components_slash]
    · rw [List.dropWhile_cons_of_neg (by simpa using ha)]

/-- A path that starts with a name. -/
theorem components_name {path : List UInt8} (hne : path ≠ []) (hHead : path.dropWhile (· = slash) = path) :
    components path = (path.takeWhile (· ≠ slash)).take DIRSIZ :: components (path.dropWhile (· ≠ slash)) := by
  have hSplit : path.takeWhile (· ≠ slash) ++ path.dropWhile (· ≠ slash) = path := List.takeWhile_append_dropWhile
  have hName : ∀ a ∈ path.takeWhile (· ≠ slash), (a == slash) = false := by
    intro a ha
    have hNot := List.mem_takeWhile_imp ha
    exact beq_eq_false_iff_ne.mpr (of_decide_eq_true hNot)
  have hFirst : path.takeWhile (· ≠ slash) ≠ [] := by
    obtain ⟨a, rest, rfl⟩ := List.exists_cons_of_ne_nil hne
    have ha : a ≠ slash := by
      rintro rfl
      rw [List.dropWhile_cons_of_pos (by simp)] at hHead
      have hLength := congrArg List.length hHead
      have hLe := (List.dropWhile_sublist (fun b => decide (b = slash)) (l := rest)).length_le
      rw [List.length_cons] at hLength
      omega
    rw [List.takeWhile_cons_of_pos (by simpa using ha)]
    exact List.cons_ne_nil _ _
  generalize path.takeWhile (· ≠ slash) = s at *
  cases hRest : path.dropWhile (· ≠ slash) with
  | nil =>
    rw [hRest, List.append_nil] at hSplit
    subst hSplit
    rw [components, List.splitOn, List.splitOnP_eq_singleton hName, List.filter_cons_of_pos (by simpa using hFirst)]
    rfl
  | cons b rest =>
    have hb : b = slash := by
      have hNot := List.head?_dropWhile_not (fun a => decide (a ≠ slash)) path
      rw [hRest] at hNot
      simpa using hNot
    rw [hRest] at hSplit
    subst hSplit hb
    rw [components_slash, components, List.splitOn, List.splitOnP_append_cons_of_forall_mem hName _ (beq_self_eq_true _),
      List.filter_cons_of_pos (by simpa using hFirst)]
    rfl

/-- Cutting a name does not change what is left in the buffer. -/
theorem buffer_take (s stale : List UInt8) : buffer (s.take DIRSIZ) stale = buffer s stale := by
  unfold buffer
  by_cases hLong : DIRSIZ ≤ s.length
  · rw [if_pos hLong, if_pos (by rw [List.length_take]; omega), List.take_take, Nat.min_self]
  · rw [List.take_of_length_le (Nat.le_of_not_le hLong), if_neg hLong, if_neg hLong]

/-- `skipelem` takes the first component. -/
theorem skipelem_components (path name : List UInt8) :
    (skipelem path name = none ∧ components path = []) ∨
    ∃ t rest, skipelem path name = some (rest, buffer t name) ∧ components path = t :: components rest ∧
      (rest = [] ↔ components rest = []) := by
  rw [← components_dropWhile path, skipelem]
  have hIdem : (path.dropWhile (· = slash)).dropWhile (· = slash) = path.dropWhile (· = slash) :=
    List.dropWhile_idempotent ..
  generalize path.dropWhile (· = slash) = p at *
  by_cases hp : p = []
  · exact .inl ⟨if_pos hp, hp ▸ components_nil⟩
  · refine .inr ⟨(p.takeWhile (· ≠ slash)).take DIRSIZ, (p.dropWhile (· ≠ slash)).dropWhile (· = slash), ?_, ?_, ?_⟩
    · rw [if_neg hp]
      dsimp only
      rw [buffer_take]
      rfl
    · rw [components_name hp hIdem, components_dropWhile]
    · constructor
      · intro hNil
        rw [hNil, components_nil]
      · intro hNil
        by_contra hne
        rw [components_name hne (List.dropWhile_idempotent ..)] at hNil
        exact List.cons_ne_nil _ _ hNil

/-! ## Following them -/

/-- The inode that the names `ts` lead to from inode `i`, one lookup after the other. -/
def resolve (N : Nat → Node) : (i : Nat) → (ts : List (List UInt8)) → Option Nat
  | i, [] => some i
  | i, t :: ts => if (N i).type = T_DIR then (content (N i) t).bind fun j => resolve N j ts else none

/-- The directory that all names but the last lead to. -/
def resolveParent (N : Nat → Node) (i : Nat) (ts : List (List UInt8)) : Option Nat :=
  if ts = [] then none else (resolve N i ts.dropLast).filter fun j => (N j).type = T_DIR

theorem resolve_cons {i : Nat} (t : List UInt8) (ts : List (List UInt8)) (hDir : (N i).type = T_DIR) :
    resolve N i (t :: ts) = (content (N i) t).bind fun j => resolve N j ts := if_pos hDir

theorem resolve_not_dir {i : Nat} (t : List UInt8) (ts : List (List UInt8)) (hDir : (N i).type ≠ T_DIR) :
    resolve N i (t :: ts) = none := if_neg hDir

theorem resolveParent_last {i : Nat} (t : List UInt8) (hDir : (N i).type = T_DIR) : resolveParent N i [t] = some i := by
  rw [resolveParent, if_neg (List.cons_ne_nil _ _), List.dropLast_singleton, resolve, Option.filter_some, if_pos (decide_eq_true hDir)]

theorem resolveParent_not_dir {i : Nat} (t : List UInt8) (ts : List (List UInt8)) (hDir : (N i).type ≠ T_DIR) :
    resolveParent N i (t :: ts) = none := by
  rw [resolveParent, if_neg (List.cons_ne_nil _ _)]
  cases ts with
  | nil => rw [List.dropLast_singleton, resolve, Option.filter_some, if_neg (by simpa using hDir)]
  | cons t' ts =>
    rw [List.dropLast_cons_cons, resolve_not_dir _ _ hDir]
    rfl

theorem resolveParent_cons {i : Nat} (t : List UInt8) {ts : List (List UInt8)} (hts : ts ≠ []) (hDir : (N i).type = T_DIR) :
    resolveParent N i (t :: ts) = (content (N i) t).bind fun j => resolveParent N j ts := by
  obtain ⟨t', ts, rfl⟩ := List.exists_cons_of_ne_nil hts
  rw [resolveParent, if_neg (List.cons_ne_nil _ _), List.dropLast_cons_cons, resolve_cons _ _ hDir]
  cases content (N i) t with
  | none => rfl
  | some j => rw [Option.bind_some, Option.bind_some, resolveParent, if_neg (List.cons_ne_nil _ _)]

/-- What `namex` is asked for. -/
def target (nameiparent : Bool) (N : Nat → Node) (i : Nat) (ts : List (List UInt8)) : Option Nat :=
  if nameiparent then resolveParent N i ts else resolve N i ts

theorem target_not_dir (parent : Bool) {i : Nat} (t : List UInt8) (ts : List (List UInt8)) (hDir : (N i).type ≠ T_DIR) :
    target parent N i (t :: ts) = none := by
  cases parent with
  | true => exact resolveParent_not_dir t ts hDir
  | false => exact resolve_not_dir t ts hDir

theorem target_cons {parent : Bool} {i : Nat} (t : List UInt8) {ts : List (List UInt8)} (hMore : ¬ (parent = true ∧ ts = []))
    (hDir : (N i).type = T_DIR) : target parent N i (t :: ts) = (content (N i) t).bind fun j => target parent N j ts := by
  cases parent with
  | true => exact resolveParent_cons t (fun hNil => hMore ⟨rfl, hNil⟩) hDir
  | false => exact resolve_cons t ts hDir

/-- A tree of directories: names lead from the root to inodes `P`, which exist; a directory is an array of whole entries; and what
has lost its last name is held by one of the pointers `K`. -/
structure TreeOk (sb : Superblock) (K : Multiset Ref) (P : Nat → Prop) (N : Nat → Node) : Prop where
  root  : P ROOTINO
  typed : ∀ i, P i → (N i).type ≠ 0
  kept  : ∀ i, P i → Orphan (N i) → ∃ r ∈ K, r.inum = i
  whole : ∀ i, P i → (N i).type = T_DIR → (N i).size % 16 = 0 ∧ (N i).holes = ∅
  range : ∀ i, P i → i < sb.ninodes
  next  : ∀ i, P i → (N i).type = T_DIR → ∀ j < (N i).slots, (ent (N i) j).inum ≠ 0 → P (ent (N i) j).inum

/-- A pointer to the inode `i`, if there is one, and nothing else. -/
def Arrives (sb : Superblock) (S : Set Nat) (D : Nat → Dinode) (N : Nat → Node) (K : Multiset Ref) (i : Option Nat)
    (ret : Option Nat) (c' : Core) : Prop :=
  (i = none ∧ ret = none ∧ At sb S D N K ∅ c') ∨ ∃ j k, i = some j ∧ ret = some k ∧ At sb S D N (⟨k, j⟩ ::ₘ K) ∅ c'

/-- The name that `nameiparent` leaves in the buffer. -/
def Names (t name : List UInt8) : Prop := ∃ stale, name = buffer t stale

theorem namexLoop_resolves (hTree : TreeOk sb K P N) (parent : Bool) {fuel : Nat} {path name : List UInt8}
    (hFuel : path.length < fuel) (h : At sb S D N (r ::ₘ K) ∅ c) (hGood : P r.inum) :
    wp (fun e => e = .igetNoInodes ∧ NINODE ≤ K.card + 1) (namexLoop parent fuel r.slot path name)
      (fun ret c' => Arrives sb S D N K (target parent N r.inum (components path)) ret.1 c' ∧
        (parent = true → ret.1 ≠ none → ∃ t, (components path).getLast? = some t ∧ Names t ret.2)) c := by
  induction fuel generalizing c r path name with
  | zero => exact absurd hFuel (Nat.not_lt_zero _)
  | succ fuel ih =>
    have hr : r ∈ r ::ₘ K := Multiset.mem_cons_self r K
    have hErase : (insert r.slot (∅ : Finset Nat)).erase r.slot = ∅ := Finset.erase_insert (Finset.notMem_empty _)
    have hIn : r.slot ∈ insert r.slot (∅ : Finset Nat) := Finset.mem_insert_self _ _
    rw [namexLoop]
    rcases skipelem_components path name with ⟨hSkip, hNone⟩ | ⟨t, rest, hSkip, hFirst, hLast⟩
    · -- no name is left
      rw [hSkip, hNone]
      dsimp only
      rw [wp_ite]
      constructor
      · rintro rfl
        rw [wp_bind]
        refine (iput_kept h (fun _ => Finset.notMem_empty _) (hTree.kept _ hGood)).mono fun _ c' h' => wp_pure.mpr ?_
        exact ⟨.inl ⟨rfl, rfl, h'⟩, fun _ hSome => absurd rfl hSome⟩
      · intro hNot
        rw [Bool.not_eq_true] at hNot
        subst hNot
        exact wp_pure.mpr ⟨.inr ⟨_, _, rfl, rfl, h⟩, by simp⟩
    · have hLess := skipelem_length hSkip
      rw [hSkip, hFirst]
      dsimp only
      rw [wp_bind]
      refine (ilock_at (h.mono Set.sdiff_subset) hr (fun hLock => absurd hLock (Finset.notMem_empty _))
        fun h0 => absurd h0 (hTree.typed _ hGood)).mono ?_
      rintro _ c₁ ⟨-, h₁⟩
      -- unlock the directory and give up
      have hFail : target parent N r.inum (t :: components rest) = none →
          wp (fun e => e = .igetNoInodes ∧ NINODE ≤ K.card + 1) (do iunlockput r.slot; return (none, buffer t name))
            (fun ret c' => Arrives sb S D N K (target parent N r.inum (t :: components rest)) ret.1 c' ∧
              (parent = true → ret.1 ≠ none → ∃ t', (t :: components rest).getLast? = some t' ∧ Names t' ret.2)) c₁ := by
        intro hTarget
        rw [wp_bind, hTarget]
        refine (iunlockput_kept h₁ hIn (hTree.kept _ hGood)).mono fun _ c' h' => ?_
        rw [hErase] at h'
        exact wp_pure.mpr ⟨.inl ⟨rfl, rfl, h'⟩, fun _ hSome => absurd rfl hSome⟩
      rw [wp_bind, wp_inode, h₁.type hr hIn, wp_ite]
      refine ⟨fun hNotDir => hFail (target_not_dir parent t _ hNotDir), fun hDir => ?_⟩
      rw [not_not] at hDir
      obtain ⟨hWhole, hHoles⟩ := hTree.whole _ hGood hDir
      rw [wp_ite]
      constructor
      · -- stop one level early
        rintro ⟨rfl, rfl⟩
        rw [wp_bind]
        refine (iunlock_at h₁ hr hIn).mono fun _ c' h' => ?_
        rw [hErase] at h'
        rw [components_nil]
        exact wp_pure.mpr ⟨.inr ⟨_, _, resolveParent_last t hDir, rfl, h'⟩, fun _ _ => ⟨t, rfl, name, rfl⟩⟩
      · intro hMore
        have hNext : ¬ (parent = true ∧ components rest = []) := fun hBad => hMore ⟨hBad.1, hLast.mpr hBad.2⟩
        have hTarget := target_cons t hNext hDir
        rw [wp_bind]
        refine (dirlookup_at h₁ hr hIn hDir (.of_holes hHoles _ _) (fun hOdd => absurd hWhole hOdd) (fun j hj => ?_)
          fun hFull => ⟨rfl, by rwa [Multiset.card_cons] at hFull⟩).mono ?_
        · obtain ⟨hNe, hjs⟩ := lookup_ne_zero hj
          exact hTree.range _ (hTree.next _ hGood hDir j hjs hNe)
        rintro ret c₂ (⟨j, k, hFound, rfl, h₂, -⟩ | ⟨hNone, rfl, rfl⟩)
        · obtain ⟨hNe, hjs⟩ := lookup_ne_zero hFound
          have hContent : content (N r.inum) t = some (ent (N r.inum) j).inum := by
            rw [lookup_buffer] at hFound
            rw [content, hFound]
            rfl
          show wp _ (do iunlockput r.slot; namexLoop parent fuel k rest (buffer t name)) _ c₂
          rw [Multiset.cons_swap] at h₂
          rw [wp_bind, hTarget, hContent]
          refine (iunlockput_kept h₂ hIn fun hOrphan => ?_).mono fun _ c₃ h₃ => ?_
          · obtain ⟨r', hr', hEq⟩ := hTree.kept _ hGood hOrphan
            exact ⟨r', Multiset.mem_cons_of_mem hr', hEq⟩
          · rw [hErase] at h₃
            refine (ih (by omega) h₃ (hTree.next _ hGood hDir j hjs hNe)).mono fun ret c' hRet => ⟨hRet.1, fun hParent hSome => ?_⟩
            obtain ⟨t', hEq, hNames⟩ := hRet.2 hParent hSome
            exact ⟨t', by rw [List.getLast?_cons, hEq]; rfl, hNames⟩
        · refine hFail ?_
          rw [lookup_buffer] at hNone
          rw [hTarget, content, hNone]
          rfl

/-- Where the walk of a path starts. -/
def origin (cwd : Nat) (path : List UInt8) : Nat := if path.head? = some slash then ROOTINO else cwd

theorem namex_target (hTree : TreeOk sb K P N) (parent : Bool) (path : List UInt8) (h : At sb S D N K ∅ c) (hr : r ∈ K)
    (hGood : P r.inum) :
    wp (fun e => e = .igetNoInodes ∧ NINODE ≤ K.card + 1) (namex r.slot path parent)
      (fun ret c' => Arrives sb S D N K (target parent N (origin r.inum path) (components path)) ret.1 c' ∧
        (parent = true → ret.1 ≠ none → ∃ t, (components path).getLast? = some t ∧ Names t ret.2)) c := by
  rw [namex, wp_ite]
  constructor
  · intro hAbs
    rw [origin, if_pos hAbs, wp_bind]
    refine (iget_at h ⟨Nat.le_refl 1, hTree.range _ hTree.root⟩ fun hFull => ⟨rfl, Nat.le_succ_of_le hFull⟩).mono ?_
    rintro k c₁ ⟨h₁, -⟩
    exact namexLoop_resolves (r := ⟨k, ROOTINO⟩) hTree parent (Nat.lt_succ_self _) h₁ hTree.root
  · intro hRel
    rw [origin, if_neg hRel, wp_bind]
    refine (idup_at h hr).mono ?_
    rintro _ c₁ ⟨rfl, h₁⟩
    exact namexLoop_resolves hTree parent (Nat.lt_succ_self _) h₁ hGood

/-- What the caller sees: the inode asked for and one more pointer to it, or nothing. All else is as it was, and nothing is
locked. -/
structure Resolved (sb : Superblock) (D : Nat → Dinode) (N : Nat → Node) (goal ret : Option Nat) (c c' : Core) : Prop where
  inode    : ret.map (fun k => (c'.itable k).inum) = goal
  dev      : ∀ k, ret = some k → (c'.itable k).dev = ROOTDEV
  ref      : ∀ k, (c'.itable k).ref = (c.itable k).ref + if ret = some k then 1 else 0
  unlocked : ∀ k, (c'.itable k).locked = false
  tree     : ∃ K', At sb ∅ D N K' ∅ c'

theorem At.unlocked (h : At sb S D N K ∅ c) (k : Nat) : (c.itable k).locked = false := by
  obtain ⟨v, h, -⟩ := h
  rw [← Bool.not_eq_true, h.table.locked k]
  exact Finset.notMem_empty k

theorem Arrives.resolved {goal ret : Option Nat} (h : At sb S D N K ∅ c) (hRet : Arrives sb S D N K goal ret c') :
    Resolved sb D N goal ret c c' := by
  rcases hRet with ⟨rfl, rfl, h'⟩ | ⟨j, k, rfl, rfl, h'⟩
  · refine ⟨rfl, nofun, fun k => ?_, h'.unlocked, K, h'.mono (Set.empty_subset S)⟩
    rw [h'.ref, h.ref, if_neg (Option.some_ne_none k).symm, Nat.add_zero]
  · have hHead : (⟨k, j⟩ : Ref) ∈ ⟨k, j⟩ ::ₘ K := Multiset.mem_cons_self _ _
    refine ⟨congrArg some (h'.inum hHead), ?_, fun k' => ?_, h'.unlocked, _, h'.mono (Set.empty_subset S)⟩
    · rintro k' hk'
      obtain rfl := Option.some.inj hk'
      exact h'.dev hHead
    · rw [h'.ref, h.ref, Multiset.map_cons, Multiset.count_cons]
      simp only [Option.some.injEq, eq_comm]

end Xv6.Fs
