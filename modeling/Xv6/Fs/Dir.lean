import Xv6.Fs.At
import Xv6.Fs.Calls
import Mathlib.Data.List.GetD

/-!
# xv6 — directories

A directory is an array of entries of sixteen bytes. Names are compared and stored in their first `DIRSIZ` bytes:
two names are the same when they have the same `key`. `lookup` is the entry that `dirlookup` finds, the first
one in use with the name; `vacant` the one that `dirlink` writes to, the first one not in use or the one after the
last.
-/

namespace Xv6.Fs

open ByteBuf Hoare Owner

variable {n : Node} {stop : Dirent → Bool} {j : Nat}

variable {E : Panic → Prop} {c c' : Core} {sb : Superblock} {S : Set Nat} {D D' : Nat → Dinode}
 {N N' : Nat → Node} {R K : Multiset Ref} {L : Finset Nat} {r : Ref}

/-! ## Names -/

theorem strncpy_succ (s : List UInt8) (n : Nat) : strncpy s (n + 1) =
    if s.headD 0 ≠ 0 then s.headD 0 :: strncpy s.tail n else List.replicate (n + 1) 0 := rfl

theorem strncmp_succ (s t : List UInt8) (n : Nat) : strncmp s t (n + 1) =
    if s.headD 0 ≠ 0 ∧ s.headD 0 = t.headD 0 then strncmp s.tail t.tail n
    else ((s.headD 0).toNat : Int) - (t.headD 0).toNat := rfl

theorem head?_strncpy (s : List UInt8) (n : Nat) : (strncpy s (n + 1)).head? = some (s.headD 0) := by
  rw [strncpy_succ]
  split
  · rfl
  · rename_i h0
    rw [not_not] at h0
    rw [h0]
    rfl

/-- `strncmp` compares what `strncpy` stores. -/
theorem strncmp_eq_zero {s t : List UInt8} {n : Nat} : strncmp s t n = 0 ↔ strncpy s n = strncpy t n := by
  induction n generalizing s t with
  | zero => exact iff_of_true rfl rfl
  | succ n ih =>
    rw [strncmp_succ]
    split
    · rename_i hSame
      rw [ih, strncpy_succ s, strncpy_succ t, if_pos hSame.1, ← hSame.2, if_pos hSame.1, List.cons.injEq,
        and_iff_right rfl]
    · rename_i hDiff
      constructor
      · intro h0
        have hEq : s.headD 0 = t.headD 0 := UInt8.toNat_inj.mp (by omega)
        have hZero : s.headD 0 = 0 := by
          by_contra hne
          exact hDiff ⟨hne, hEq⟩
        rw [strncpy_succ s, strncpy_succ t, if_neg (not_not.mpr hZero), if_neg (not_not.mpr (hEq ▸ hZero))]
      · intro hEq
        have hHead := congrArg List.head? hEq
        rw [head?_strncpy, head?_strncpy, Option.some.injEq] at hHead
        rw [hHead, sub_self]

/-- The bytes of a name that count. -/
def key (s : List UInt8) : List UInt8 := strncpy s DIRSIZ

theorem namecmp_eq_zero {s t : List UInt8} : namecmp s t = 0 ↔ key s = key t := strncmp_eq_zero

theorem strncpy_strncpy (s : List UInt8) (n : Nat) : strncpy (strncpy s n) n = strncpy s n := by
  induction n generalizing s with
  | zero => rfl
  | succ n ih =>
    by_cases h0 : s.headD 0 = 0
    · have hZero : strncpy s (n + 1) = List.replicate (n + 1) 0 := by
        rw [strncpy_succ, if_neg (not_not.mpr h0)]
      rw [hZero, strncpy_succ]
      exact if_neg (not_not.mpr rfl)
    · have hCons : strncpy s (n + 1) = s.headD 0 :: strncpy s.tail n := by
        rw [strncpy_succ, if_pos h0]
      rw [hCons, strncpy_succ, List.headD_cons, if_pos h0, List.tail_cons, ih]

theorem length_strncpy (s : List UInt8) (n : Nat) : (strncpy s n).length = n := by
  induction n generalizing s with
  | zero => rfl
  | succ n ih =>
    rw [strncpy_succ]
    split
    · rw [List.length_cons, ih]
    · exact List.length_replicate

theorem key_key (s : List UInt8) : key (key s) = key s := strncpy_strncpy s DIRSIZ

/-! ## Entries -/

/-- Entry `j` of a directory. -/
def ent (n : Node) (j : Nat) : Dirent := Dirent.ofBytes (slice n.data (16 * j) 16)

/-- Number of entries. -/
def Node.slots (n : Node) : Nat := n.size / 16

/-- The first entry from `j` on that the scan stops at. -/
def find (n : Node) (stop : Dirent → Bool) (j : Nat) : Option Nat :=
  (List.range' j (n.slots - j)).find? fun i => stop (ent n i)

theorem find_stop (hj : j < n.slots)
    (hStop : stop (ent n j) = true) : find n stop j = some j := by
  obtain ⟨m, hm⟩ := Nat.exists_eq_add_of_lt hj
  rw [find, show n.slots - j = m + 1 by omega, List.range'_succ]
  exact List.find?_cons_of_pos hStop

theorem find_next (hj : j < n.slots)
    (hNot : stop (ent n j) = false) : find n stop j = find n stop (j + 1) := by
  obtain ⟨m, hm⟩ := Nat.exists_eq_add_of_lt hj
  rw [find, find, show n.slots - j = m + 1 by omega, show n.slots - (j + 1) = m by omega, List.range'_succ]
  exact List.find?_cons_of_neg (by rw [hNot]; exact Bool.false_ne_true)

theorem find_end (hj : n.slots ≤ j) : find n stop j = none := by
  rw [find, Nat.sub_eq_zero_of_le hj]
  rfl

theorem find_eq_some {i : Nat} : find n stop j = some i ↔
    stop (ent n i) = true ∧ j ≤ i ∧ i < n.slots ∧ ∀ i', j ≤ i' → i' < i → stop (ent n i') = false := by
  rw [find, List.find?_range'_eq_some]
  simp only [List.mem_range'_1, Bool.not_eq_eq_eq_not, Bool.not_true]
  refine and_congr_right fun _ => ⟨fun ⟨hMem, hMin⟩ => ⟨hMem.1, by omega, hMin⟩,
    fun ⟨hj, hi, hMin⟩ => ⟨⟨hj, by omega⟩, hMin⟩⟩

theorem find_eq_none : find n stop j = none ↔
    ∀ i, j ≤ i → i < n.slots → stop (ent n i) = false := by
  rw [find, List.find?_eq_none]
  simp only [List.mem_range'_1, Bool.not_eq_true]
  exact ⟨fun h i hj hi => h i ⟨hj, by omega⟩, fun h i hi => h i hi.1 (by omega)⟩

def isEntry (name : List UInt8) (de : Dirent) : Bool := de.inum ≠ 0 ∧ namecmp name de.name = 0

def lookup (n : Node) (name : List UInt8) : Option Nat := find n (isEntry name) 0

def vacant (n : Node) : Nat := (find n (fun de => de.inum = 0) 0).getD n.slots

theorem vacant_le (n : Node) : vacant n ≤ n.slots := by
  rw [vacant]
  cases hFind : find n (fun de => de.inum = 0) 0 with
  | none => exact Nat.le_refl _
  | some j => exact Nat.le_of_lt (find_eq_some.mp hFind).2.2.1

/-! ## The loop over the entries -/

/-- An entry lies in one block. -/
theorem entry_block {o : Nat} (h : 16 * j ≤ o) (h' : o < 16 * j + 16) : o / BSIZE = 16 * j / BSIZE := by
  have hB : BSIZE = 1024 := rfl
  rw [hB]
  omega

theorem scanLoop_hit {k : Nat} {err : Panic} {fuel : Nat}
    (hNode : NodeOk c.buf (c.itable k).din n True) (hType : (c.itable k).din.type ≠ 0)
    (hHoles : ∀ i, j ≤ i → 16 * i < n.size → (∀ i', j ≤ i' → i' < i → stop (ent n i') = false) →
      16 * i / BSIZE ∉ n.holes)
    (hErr : n.size % 16 ≠ 0 → E err) (hFuel : n.slots < j + fuel) :
    wp E (scanLoop k err stop fuel (16 * j)) (fun p c' => c' = c ∧ p = match find n stop j with
      | some i => (16 * i, some (ent n i))
      | none => (16 * max j n.slots, none)) c := by
  have hSize := hNode.size hType trivial
  have hMax : MAXFILE * BSIZE < 2 ^ 31 := by decide
  have hBound := hNode.bound
  have hSlots : n.slots = n.size / 16 := rfl
  induction fuel generalizing j with
  | zero =>
    rw [scanLoop, wp_pure, find_end (by omega), Nat.max_eq_left (by omega)]
    exact ⟨rfl, rfl⟩
  | succ fuel ih =>
    rw [scanLoop, wp_bind, wp_inode, ← hSize, wp_ite]
    constructor
    · intro hMore
      have hHole := hHoles j (Nat.le_refl j) hMore fun i' h₁ h₂ => by omega
      rw [wp_bind]
      refine readi_kernel hNode hType (fun o h₁ h₂ _ => (entry_block h₁ h₂).symm ▸ hHole) ?_
      rw [readLen_eq (by omega)]
      show wp E (if (slice n.data (16 * j) (min 16 (n.size - 16 * j))).length ≠ 16 then _ else _) _ c
      rw [length_slice, wp_ite]
      constructor
      · intro hShort
        exact wp_throw.mpr (hErr (by omega))
      · intro hFull
        have hLen : min 16 (n.size - 16 * j) = 16 := by omega
        have hj : j < n.slots := by omega
        rw [hLen, wp_ite]
        constructor
        · intro hStop
          rw [wp_pure, find_stop hj hStop]
          exact ⟨rfl, rfl⟩
        · intro hNot
          rw [Bool.not_eq_true] at hNot
          have hNext := ih (j := j + 1) (fun i h₁ h₂ hBefore => hHoles i (by omega) h₂ fun i' h₃ h₄ => by
            rcases Nat.eq_or_lt_of_le h₃ with rfl | hlt
            · exact hNot
            · exact hBefore i' hlt h₄) (by omega)
          rw [find_next hj hNot]
          rwa [Nat.max_eq_right (show j + 1 ≤ n.slots by omega), Nat.mul_succ,
            ← Nat.max_eq_right (show j ≤ n.slots by omega)] at hNext
    · intro hDone
      rw [wp_pure, find_end (by omega), Nat.max_eq_left (by omega)]
      exact ⟨rfl, rfl⟩

theorem scan_hit {k : Nat} {err : Panic} (j : Nat)
    (hNode : NodeOk c.buf (c.itable k).din n True) (hType : (c.itable k).din.type ≠ 0)
    (hHoles : ∀ i, j ≤ i → 16 * i < n.size → (∀ i', j ≤ i' → i' < i → stop (ent n i') = false) →
      16 * i / BSIZE ∉ n.holes)
    (hErr : n.size % 16 ≠ 0 → E err) :
    wp E (scan k err stop (16 * j)) (fun p c' => c' = c ∧ p = match find n stop j with
      | some i => (16 * i, some (ent n i))
      | none => (16 * max j n.slots, none)) c := by
  rw [scan, wp_bind, wp_inode, ← hNode.size hType trivial]
  exact scanLoop_hit hNode hType hHoles hErr (by rw [Node.slots]; omega)

/-- Every entry that a scan reaches has a block. -/
def Reached (n : Node) (stop : Dirent → Bool) (j : Nat) : Prop :=
  ∀ i, j ≤ i → 16 * i < n.size → (∀ i', j ≤ i' → i' < i → stop (ent n i') = false) → 16 * i / BSIZE ∉ n.holes

theorem Reached.of_holes (h : n.holes = ∅) (stop : Dirent → Bool) (j : Nat) : Reached n stop j :=
  fun _ _ _ _ => h ▸ Set.notMem_empty _

section Scans

variable {k : Nat} {α : Type} {Q : α → Core → Prop} (hNode : NodeOk c.buf (c.itable k).din n True)
  (hType : (c.itable k).din.type ≠ 0)

include hNode hType

/-- The scan of `dirlink` ends at the entry that will be written. -/
theorem wp_scan_vacant {f : Nat × Option Dirent → M α} (hHoles : n.holes = ∅) (hErr : n.size % 16 ≠ 0 → E .dirlinkRead)
    (h : ∀ de, wp E (f (16 * vacant n, de)) Q c) : wp E (scan k .dirlinkRead (fun de => de.inum = 0) 0 >>= f) Q c := by
  rw [wp_bind]
  refine (scan_hit 0 hNode hType (Reached.of_holes hHoles _ _) hErr).mono ?_
  rintro p c' ⟨rfl, rfl⟩
  unfold vacant at h
  cases hFind : find n (fun de => de.inum = 0) 0 with
  | some i =>
    rw [hFind] at h
    exact h _
  | none =>
    rw [hFind] at h
    rw [Nat.zero_max]
    exact h _

/-- The scan of `dirlookup`. -/
theorem wp_scan_lookup {name : List UInt8} {f : Nat × Option Dirent → M α} (hHoles : Reached n (isEntry name) 0)
    (hErr : n.size % 16 ≠ 0 → E .dirlookupRead) (hNone : lookup n name = none → ∀ off, wp E (f (off, none)) Q c)
    (hSome : ∀ j, lookup n name = some j → wp E (f (16 * j, some (ent n j))) Q c) :
    wp E (scan k .dirlookupRead (isEntry name) 0 >>= f) Q c := by
  rw [wp_bind]
  refine (scan_hit 0 hNode hType hHoles hErr).mono ?_
  rintro p c' ⟨rfl, rfl⟩
  unfold lookup at hNone hSome
  cases hFind : find n (isEntry name) 0 with
  | none => exact hNone hFind _
  | some j => exact hSome j hFind

end Scans

/-! ## The functions -/

theorem dirlookup_at {name : List UInt8} (h : At sb S D N R L c) (hr : r ∈ R) (hL : r.slot ∈ L)
    (hType : (N r.inum).type = T_DIR) (hHoles : Reached (N r.inum) (isEntry name) 0)
    (hErr : (N r.inum).size % 16 ≠ 0 → E .dirlookupRead)
    (hRange : ∀ j, lookup (N r.inum) name = some j → (ent (N r.inum) j).inum < sb.ninodes)
    (hOut : NINODE ≤ R.card → E .igetNoInodes) :
    wp E (dirlookup r.slot name) (fun ret c' =>
      (∃ j k, lookup (N r.inum) name = some j ∧ ret = some (k, 16 * j) ∧
        At sb S D N (⟨k, (ent (N r.inum) j).inum⟩ ::ₘ R) L c' ∧ (⟨k, (ent (N r.inum) j).inum⟩ ∉ R → k ∉ L)) ∨
      (lookup (N r.inum) name = none ∧ ret = none ∧ c' = c)) c := by
  obtain ⟨hNode, hne⟩ := h.node hr hL
  rw [dirlookup, wp_bind, wp_inode, h.type hr hL, wp_bind, wp_when]
  refine ⟨fun hNot => absurd hType hNot, fun _ => ?_⟩
  refine wp_scan_lookup hNode hne hHoles hErr (fun hNone _ => wp_pure.mpr (.inr ⟨hNone, rfl, rfl⟩)) fun j hFind => ?_
  have hStop := (find_eq_some.mp hFind).1
  rw [isEntry, decide_eq_true_eq] at hStop
  dsimp only
  rw [wp_bind, wp_inode, h.dev hr, wp_bind]
  refine (iget_at h ⟨Nat.pos_of_ne_zero hStop.1, hRange j hFind⟩ hOut).mono fun k c' h' => ?_
  exact wp_pure.mpr (.inl ⟨j, k, hFind, rfl, h'⟩)

/-- The directory with entry `j` set to the bytes `l`. -/
def Node.setEnt (n : Node) (j : Nat) (l : List UInt8) (u : Finset Nat) : Node :=
  n.written (16 * j) 16 u (overwrite n.data (16 * j) 16 fun o => l.getD o 0)

theorem map_getD_range (l : List UInt8) : (List.range l.length).map (fun i => l.getD i 0) = l := by
  refine List.ext_getElem (by rw [List.length_map, List.length_range]) fun i _ hi => ?_
  rw [List.getElem_map, List.getElem_range, List.getD_eq_getElem _ _ hi]

theorem ent_setEnt {l : List UInt8} {u : Finset Nat} (hl : l.length = 16) :
    ent (n.setEnt j l u) j = Dirent.ofBytes l := by
  have hSlice : slice (n.setEnt j l u).data (16 * j) 16 = l := by
    refine Eq.trans ?_ (map_getD_range l)
    rw [slice, hl]
    refine List.map_congr_left fun o ho => ?_
    have ho := List.mem_range.mp ho
    show overwrite n.data (16 * j) 16 (fun o => l.getD o 0) (16 * j + o) = _
    rw [overwrite, if_pos (by omega), Nat.add_sub_cancel_left]
  rw [ent, hSlice]

theorem ent_setEnt_of_ne {j' : Nat} {l : List UInt8} {u : Finset Nat} (hj : j' ≠ j) :
    ent (n.setEnt j l u) j' = ent n j' := by
  have hSlice : slice (n.setEnt j l u).data (16 * j') 16 = slice n.data (16 * j') 16 := by
    refine slice_congr fun o h₁ h₂ => ?_
    show overwrite n.data (16 * j) 16 (fun o => l.getD o 0) o = _
    rw [overwrite, if_neg (by omega)]
  rw [ent, hSlice, ent]

theorem slots_setEnt (n : Node) (j : Nat) (l : List UInt8) (u : Finset Nat) :
    (n.setEnt j l u).slots = max n.slots (j + 1) := by
  show max n.size (16 * j + 16) / 16 = max (n.size / 16) (j + 1)
  omega

/-- Sixteen bytes of the kernel are written to an entry. -/
theorem writeEnt_at {l : List UInt8} (h : At sb S D N R L c) (hr : r ∈ R) (hL : r.slot ∈ L)
    (hOut : c.freeBlocks.card < missing c.buf (c.itable r.slot).din (span (16 * j) 16) → E .ballocOutOfBlocks) :
    wp E (writei r.slot (ofList l) (16 * j) 16) (fun ret c' =>
      (Refused (N r.inum).size (16 * j) 16 ∧ ret ≠ some 16) ∨
      (¬ Refused (N r.inum).size (16 * j) 16 ∧ ret = some 16 ∧
        ∃ u D', At sb S D' (upd N r.inum ((N r.inum).setEnt j l u)) R L c')) c := by
  refine (writei_at h hr hL (fun _ _ _ => rfl) hOut).mono ?_
  rintro ret c' (⟨hBad, rfl, -⟩ | ⟨hGood, tot, u, data, D', rfl, -, -, hAll, h'⟩)
  · exact .inl ⟨hBad, nofun⟩
  · obtain ⟨rfl, rfl⟩ := hAll fun _ _ => rfl
    exact .inr ⟨hGood, rfl, u, D', h'⟩

/-- The bytes that `dirlink` writes. -/
def entBytes (name : List UInt8) (inum : Nat) : List UInt8 := Dirent.toBytes { inum := inum, name := key name }

theorem length_entBytes (name : List UInt8) (inum : Nat) : (entBytes name inum).length = 16 := by
  rw [entBytes, Dirent.toBytes, List.length_cons, List.length_cons, key, length_strncpy]

/-- The entry that `dirlink` wrote. -/
theorem ent_entBytes (n : Node) (j : Nat) (name : List UInt8) (inum : Nat) (u : Finset Nat) :
    ent (n.setEnt j (entBytes name inum) u) j = { inum := inum % 2 ^ 16, name := key name } := by
  rw [ent_setEnt (length_entBytes name inum), entBytes, Dirent.ofBytes_toBytes]

theorem dirlink_at {name : List UInt8} {inum : Nat} (h : At sb S D N R L c) (hr : r ∈ R) (hL : r.slot ∈ L)
    (hType : (N r.inum).type = T_DIR) (hHoles : (N r.inum).holes = ∅)
    (hErr : (N r.inum).size % 16 ≠ 0 → E .dirlookupRead ∧ E .dirlinkRead)
    (hRange : ∀ j, lookup (N r.inum) name = some j → (ent (N r.inum) j).inum < sb.ninodes)
    (hOut : NINODE ≤ R.card → E .igetNoInodes)
    (hBlocks : c.freeBlocks.card < missing c.buf (c.itable r.slot).din (span (16 * vacant (N r.inum)) 16) →
      E .ballocOutOfBlocks)
    (hFull : Refused (N r.inum).size (16 * vacant (N r.inum)) 16 → E .dirlink) :
    wp E (dirlink r.slot name inum) (fun ret c' =>
      (lookup (N r.inum) name ≠ none ∧ ret = false ∧ ∃ D' N', Lapse R D N D' N' ∧ At sb S D' N' R L c') ∨
      (lookup (N r.inum) name = none ∧ ret = true ∧ ¬ Refused (N r.inum).size (16 * vacant (N r.inum)) 16 ∧
        ∃ u D', At sb S D' (upd N r.inum ((N r.inum).setEnt (vacant (N r.inum)) (entBytes name inum) u)) R L c'))
      c := by
  rw [dirlink, wp_bind]
  refine (dirlookup_at h hr hL hType (.of_holes hHoles _ _) (fun hOdd => (hErr hOdd).1) hRange hOut).mono ?_
  rintro ret c₁ (⟨j, k, hFound, rfl, h₁, hLock⟩ | ⟨hNone, rfl, rfl⟩)
  · dsimp only
    rw [wp_bind]
    refine (iput_at h₁ hLock).mono ?_
    rintro _ c' ⟨D', N', hLapse, h'⟩
    exact wp_pure.mpr (.inl ⟨by simp [hFound], rfl, D', N', hLapse, h'⟩)
  · obtain ⟨hNode, hne⟩ := h.node hr hL
    refine wp_scan_vacant hNode hne hHoles (fun hOdd => (hErr hOdd).2) fun _ => ?_
    dsimp only
    rw [wp_bind]
    refine (writeEnt_at h hr hL hBlocks).mono ?_
    rintro ret c' (⟨hBad, hRet⟩ | ⟨hGood, rfl, u, D', h'⟩)
    · rw [wp_bind, wp_when]
      exact ⟨fun _ => wp_throw.mpr (hFull hBad), fun hEq => absurd hRet hEq⟩
    · rw [wp_bind, wp_when]
      exact ⟨fun hne => absurd rfl hne, fun _ => wp_pure.mpr (.inr ⟨hNone, rfl, hGood, u, D', h'⟩)⟩

theorem isdirempty_at (h : At sb S D N R L c) (hr : r ∈ R) (hL : r.slot ∈ L) (hHoles : (N r.inum).holes = ∅)
    (hErr : (N r.inum).size % 16 ≠ 0 → E .isdiremptyReadi) :
    wp E (isdirempty r.slot) (fun ret c' => c' = c ∧
      ret = (find (N r.inum) (fun de => de.inum ≠ 0) 2).isNone) c := by
  obtain ⟨hNode, hne⟩ := h.node hr hL
  rw [isdirempty, wp_bind]
  refine (scan_hit 2 hNode hne (Reached.of_holes hHoles _ _) hErr).mono ?_
  rintro p c' ⟨rfl, rfl⟩
  rw [wp_pure]
  refine ⟨rfl, ?_⟩
  cases find (N r.inum) (fun de => de.inum ≠ 0) 2 with
  | some | none => rfl

end Xv6.Fs
