import Xv6.Vm.Table

/-!
# xv6 — a page table is a finite map

`mappages` and `uvmunmap` on ranges of any length, with any permissions, told by what `walk` finds
before and after (`translate`). A page table is well formed when different indices lead to
different tables and no table is on the free list (`WellFormed`): a word that is written then belongs
to one virtual page only.

* `mappages_map`: `mappages` maps its range, or a part of it from the front when it runs out of pages.
* `uvmunmap_map`: `uvmunmap` unmaps its range.
* `PgTable.wellFormed`: the tables of processes are well formed.
-/

namespace Xv6.Vm

open Hoare Finset ByteBuf

variable {E : Panic → Prop} {L : Layout} {m m' : Mem} {pt t x i k r : Nat} {p q : List Nat}

/-! ## Paths -/

/-- The table that entry `i` of the table `t` points to. -/
def child (m : Mem) (t i : Nat) : Option Nat := if (m.word t i).valid then some (m.word t i).pa else none

/-- The table that the indices `p` lead to from `t`. -/
def tableAt (m : Mem) : (t : Nat) → (p : List Nat) → Option Nat
  | t, [] => some t
  | t, i :: p => (child m t i).bind fun c => tableAt m c p

/-- Indices that lead from the top of a page table to one of its tables. -/
structure IsPath (p : List Nat) : Prop where
  length : p.length ≤ 2
  digits : ∀ i ∈ p, i < 512

/-- The indices of `va` above the last one. -/
def path (va : Nat) : List Nat := [PX 2 va, PX 1 va]

theorem px_lt (level va : Nat) : PX level va < 512 := Nat.mod_lt _ (by decide)

theorem isPath_path (va : Nat) : IsPath (path va) where
  length := le_rfl
  digits i hi := by
    simp only [path, List.mem_cons, List.not_mem_nil, or_false] at hi
    rcases hi with rfl | rfl
    · exact px_lt 2 va
    · exact px_lt 1 va

theorem IsPath.init (h : IsPath (p ++ [i])) : IsPath p where
  length := by
    have hLength := h.length
    rw [List.length_append, List.length_singleton] at hLength
    omega
  digits j hj := h.digits j (List.mem_append_left _ hj)

theorem tableAt_append (m : Mem) (t : Nat) (p q : List Nat) :
    tableAt m t (p ++ q) = (tableAt m t p).bind fun c => tableAt m c q := by
  induction p generalizing t with
  | nil => rfl
  | cons i p ih =>
    rw [List.cons_append, tableAt, tableAt, Option.bind_assoc]
    exact Option.bind_congr fun c _ => ih c

theorem tableAt_snoc (m : Mem) (t : Nat) (p : List Nat) (i : Nat) :
    tableAt m t (p ++ [i]) = (tableAt m t p).bind fun c => child m c i := by
  rw [tableAt_append]
  exact Option.bind_congr fun c _ => Option.bind_fun_some _

/-! ## Well-formed page tables -/

/-- The tables of the page table `pt` are pairwise distinct, and `kalloc` returns none of them. -/
structure WellFormed (m : Mem) (pt : Nat) : Prop where
  distinct : ∀ p q t, IsPath p → IsPath q → tableAt m pt p = some t → tableAt m pt q = some t → p = q
  taken    : ∀ p t, IsPath p → tableAt m pt p = some t → t ∉ m.freelist
  nodup    : m.freelist.Nodup
  pages    : ∀ x ∈ m.freelist, x % PGSIZE = 0 ∧ x < 2 ^ 64

/-- The valid entry that `walk` finds for `va`. -/
def translate (m : Mem) (pt va : Nat) : Option Pte :=
  match walk pt va false m with
  | .ok (some (t, i), _) => if (m.word t i).valid then some (m.word t i) else none
  | _ => none

theorem wp_walkLevel {level va : Nat} {Q : Option Nat → Mem → Prop} (h : Q (child m t (PX level va)) m) :
    wp E (walkLevel t level va false) Q m := by
  rw [walkLevel, wp_bind, wp_entry]
  unfold child at h
  split at h
  · rename_i hValid
    rw [if_pos hValid, wp_pure]
    exact h
  · rename_i hInvalid
    rw [if_neg hInvalid, if_neg Bool.false_ne_true, wp_pure]
    exact h

/-- `walk` that does not allocate follows the path. -/
theorem wp_walk_path {va : Nat} {Q : Option (Nat × Nat) → Mem → Prop} (hva : va < MAXVA)
    (h : Q ((tableAt m pt (path va)).map fun t => (t, PX 0 va)) m) : wp E (walk pt va false) Q m := by
  rw [walk, wp_bind, wp_when]
  refine ⟨fun hBad => absurd hBad (by omega), fun _ => ?_⟩
  rw [walkLoop, wp_bind]
  refine wp_walkLevel ?_
  rw [path, tableAt] at h
  cases hMid : child m pt (PX (1 + 1) va) with
  | none =>
    rw [hMid] at h
    exact wp_pure.mpr h
  | some c =>
    rw [hMid, Option.bind_some, tableAt] at h
    dsimp only
    rw [walkLoop, wp_bind]
    refine wp_walkLevel ?_
    cases hLow : child m c (PX (0 + 1) va) with
    | none | some =>
      rw [hLow] at h
      exact wp_pure.mpr h

theorem walk_eq {va : Nat} (hva : va < MAXVA) : walk pt va false m =
    .ok ((tableAt m pt (path va)).map fun t => (t, PX 0 va), m) := by
  have hWp : wp (fun _ => False) (walk pt va false)
      (fun r m' => r = (tableAt m pt (path va)).map (fun t => (t, PX 0 va)) ∧ m' = m) m := wp_walk_path hva ⟨rfl, rfl⟩
  obtain ⟨r, m', hWalk, hr, hm⟩ := hWp.total
  rw [hWalk, hr, hm]

theorem translate_eq {va : Nat} (hva : va < MAXVA) : translate m pt va =
    (tableAt m pt (path va)).bind fun t => if (m.word t (PX 0 va)).valid then some (m.word t (PX 0 va)) else none := by
  rw [translate, walk_eq hva]
  cases tableAt m pt (path va) with
  | none | some => rfl

theorem translate_some {va : Nat} {w : Pte} (hva : va < MAXVA) (h : translate m pt va = some w) :
    ∃ t, tableAt m pt (path va) = some t ∧ m.word t (PX 0 va) = w ∧ w.valid = true := by
  rw [translate_eq hva, Option.bind_eq_some_iff] at h
  obtain ⟨t, ht, hEntry⟩ := h
  split at hEntry
  · rename_i hValid
    obtain rfl := Option.some.inj hEntry
    exact ⟨t, ht, rfl, hValid⟩
  · cases hEntry

/-! ## Writes -/

/-- Paths only depend on the tables they lead to. -/
theorem tableAt_congr (hSame : ∀ p t, IsPath p → tableAt m pt p = some t → m'.word t = m.word t) (hq : IsPath q) :
    tableAt m' pt q = tableAt m pt q := by
  induction q using List.reverseRecOn with
  | nil => rfl
  | append_singleton q i ih =>
    rw [tableAt_snoc, tableAt_snoc, ih hq.init]
    cases hq' : tableAt m pt q with
    | none => rw [Option.bind_none, Option.bind_none]
    | some t =>
      rw [Option.bind_some, Option.bind_some, child, child, hSame q t hq.init hq']

/-- A word of one table is written: the paths that do not go through it stay as they are. -/
theorem tableAt_setWord {w : Pte} (h : WellFormed m pt) (hp : IsPath p) (hx : tableAt m pt p = some x) (hk : k < 512)
    (hq : IsPath q) (hNot : ¬ p ++ [k] <+: q) : tableAt (m.setWord x k w) pt q = tableAt m pt q := by
  induction q using List.reverseRecOn with
  | nil => rfl
  | append_singleton q i ih =>
    rw [tableAt_snoc, tableAt_snoc, ih hq.init fun hPre => hNot (hPre.trans (List.prefix_append q [i]))]
    cases hq' : tableAt m pt q with
    | none => rw [Option.bind_none, Option.bind_none]
    | some t =>
      have hWord : (m.setWord x k w).word t i = m.word t i := by
        rw [Mem.setWord_word hk]
        by_cases htx : t = x
        · -- the table is only found at the end of `p`, so the word is another one
          obtain rfl : q = p := h.distinct q p x hq.init hp (htx ▸ hq') hx
          have hik : i ≠ k := fun hEq => hNot (hEq ▸ List.prefix_refl _)
          rw [htx, upd_self, upd_of_ne hik]
        · rw [upd_of_ne htx]
      rw [Option.bind_some, Option.bind_some, child, child, hWord]

/-- A word of a table of the last level is on no path. -/
theorem tableAt_setWord_leaf {w : Pte} (h : WellFormed m pt) (hp : IsPath p) (hLast : p.length = 2)
    (hx : tableAt m pt p = some x) (hk : k < 512) (hq : IsPath q) :
    tableAt (m.setWord x k w) pt q = tableAt m pt q := by
  refine tableAt_setWord h hp hx hk hq fun hPre => ?_
  have hLe := hPre.length_le
  have hLength := hq.length
  rw [List.length_append, List.length_singleton] at hLe
  omega

/-- Only the paths and the free list matter. -/
theorem WellFormed.congr (h : WellFormed m pt) (hTables : ∀ q, IsPath q → tableAt m' pt q = tableAt m pt q)
    (hFree : m'.freelist = m.freelist) : WellFormed m' pt where
  distinct p q t hp hq hpt hqt := h.distinct p q t hp hq (hTables p hp ▸ hpt) (hTables q hq ▸ hqt)
  taken p t hp hpt := by
    rw [hFree]
    exact h.taken p t hp (hTables p hp ▸ hpt)
  nodup := hFree ▸ h.nodup
  pages := hFree ▸ h.pages

/-- Virtual pages below `MAXVA` are told apart by their indices. -/
theorem page_of_indices {va va' : Nat} (hva : va < MAXVA) (hva' : va' < MAXVA) (hPath : path va = path va')
    (hLast : PX 0 va = PX 0 va') : va / PGSIZE = va' / PGSIZE := by
  simp only [path, List.cons.injEq, and_true] at hPath
  obtain ⟨hTop, hMid⟩ := hPath
  unfold PX at *
  unfold MAXVA PGSIZE at *
  omega

theorem indices_of_page {va va' : Nat} (hPage : va / PGSIZE = va' / PGSIZE) : path va = path va' ∧ PX 0 va = PX 0 va' := by
  have hIndex : ∀ level, PX level va = PX level va' := by
    intro level
    have hDiv : ∀ a, a / 2 ^ (12 + 9 * level) = a / PGSIZE / 2 ^ (9 * level) := by
      intro a
      rw [Nat.div_div_eq_div_mul, Nat.pow_add]
    rw [PX, PX, hDiv, hDiv, hPage]
  exact ⟨by rw [path, path, hIndex, hIndex], hIndex 0⟩

/-- The entry of `va` is written. -/
theorem translate_setWord {va va' : Nat} {w : Pte} (h : WellFormed m pt) (hva : va < MAXVA) (hva' : va' < MAXVA)
    (hx : tableAt m pt (path va) = some x) :
    translate (m.setWord x (PX 0 va) w) pt va' =
      if va' / PGSIZE = va / PGSIZE then (if w.valid then some w else none) else translate m pt va' := by
  have hSame := tableAt_setWord_leaf (w := w) h (isPath_path va) rfl hx (px_lt 0 va) (isPath_path va')
  rw [translate_eq hva', translate_eq hva', hSame, Mem.setWord_word (px_lt 0 va)]
  split
  · rename_i hPage
    obtain ⟨hPath, hLast⟩ := indices_of_page hPage
    rw [hPath, hLast, hx, Option.bind_some, upd_self, upd_self]
  · rename_i hPage
    cases hq : tableAt m pt (path va') with
    | none => rw [Option.bind_none, Option.bind_none]
    | some t =>
      rw [Option.bind_some, Option.bind_some]
      by_cases htx : t = x
      · have hPath := h.distinct _ _ t (isPath_path va') (isPath_path va) hq (htx ▸ hx)
        have hLast : PX 0 va' ≠ PX 0 va := fun hLast => hPage (page_of_indices hva' hva hPath hLast)
        rw [htx, upd_self, upd_of_ne hLast]
      · rw [upd_of_ne htx]

/-! ## New tables -/

/-- From `m` to `m'` the page table may have got more tables, but it maps what it did. -/
structure Deeper (pt : Nat) (m m' : Mem) : Prop where
  wf     : WellFormed m' pt
  tables : ∀ q t, IsPath q → tableAt m pt q = some t → tableAt m' pt q = some t
  same   : ∀ va < MAXVA, translate m' pt va = translate m pt va

theorem Deeper.refl (h : WellFormed m pt) : Deeper pt m m := ⟨h, fun _ _ _ ht => ht, fun _ _ => rfl⟩

theorem Deeper.trans {m'' : Mem} (h : Deeper pt m m') (h' : Deeper pt m' m'') : Deeper pt m m'' where
  wf := h'.wf
  tables q t hq ht := h'.tables q t hq (h.tables q t hq ht)
  same va hva := (h'.same va hva).trans (h.same va hva)

/-- The memory when the free page `r` has become a table, at entry `i` of the table `x`. -/
def Mem.grow (m : Mem) (next : List Nat) (r x i : Nat) : Mem :=
  (({ m with freelist := next } : Mem).put r fun _ => 0).setWord x i (PA2PTE r PTE_V)

section Grow

variable {next : List Nat}

/-- The page is cleared and off the free list. -/
theorem WellFormed.take (h : WellFormed m pt) (hFree : m.freelist = r :: next) :
    WellFormed (({ m with freelist := next } : Mem).put r fun _ => 0) pt ∧
      ∀ q, IsPath q → tableAt (({ m with freelist := next } : Mem).put r fun _ => 0) pt q = tableAt m pt q := by
  have hTables : ∀ q, IsPath q → tableAt (({ m with freelist := next } : Mem).put r fun _ => 0) pt q = tableAt m pt q := by
    intro q hq
    refine tableAt_congr (fun p t hp ht => ?_) hq
    have htr : t ≠ r := fun hEq => h.taken p t hp ht (by rw [hFree, hEq]; exact List.mem_cons_self)
    rw [word_put_of_ne _ htr]
    rfl
  have hNodup := h.nodup
  have hPages := h.pages
  rw [hFree] at hNodup hPages
  refine ⟨⟨fun p q t hp hq hpt hqt => ?_, fun p t hp hpt hMem => ?_, hNodup.of_cons,
    fun y hy => hPages y (List.mem_cons_of_mem r hy)⟩, hTables⟩
  · exact h.distinct p q t hp hq (hTables p hp ▸ hpt) (hTables q hq ▸ hqt)
  · refine h.taken p t hp (hTables p hp ▸ hpt) ?_
    rw [hFree]
    exact List.mem_cons_of_mem r hMem

variable (h : WellFormed m pt) (hFree : m.freelist = r :: next) (hp : IsPath (p ++ [i])) (hx : tableAt m pt p = some x)
  (hEmpty : child m x i = none)

include h hFree hp

theorem child_grow : child (m.grow next r x i) x i = some r := by
  have hi : i < 512 := hp.digits i (by simp)
  obtain ⟨hAligned, hLt⟩ := h.pages r (by rw [hFree]; exact List.mem_cons_self)
  have hWord : (m.grow next r x i).word x i = PA2PTE r PTE_V := by
    rw [Mem.grow, Mem.setWord_word hi, upd_self, upd_self]
  have hValid : (PA2PTE r PTE_V).valid = true := by
    rw [Pte.valid, PA2PTE_flags]
    decide
  rw [child, hWord, if_pos hValid, PA2PTE_pa hAligned hLt]

include hx

theorem grow_ne : x ≠ r := fun hEq => h.taken p x hp.init hx (by rw [hFree, hEq]; exact List.mem_cons_self)

theorem word_grow_new (j : Nat) : (m.grow next r x i).word r j = 0 := by
  have hi : i < 512 := hp.digits i (by simp)
  rw [Mem.grow, Mem.setWord_word hi, upd_of_ne (grow_ne h hFree hp hx).symm]
  exact word_zero r j

include hEmpty

/-- One more table. -/
theorem tableAt_grow (hq : IsPath q) :
    tableAt (m.grow next r x i) pt q = if q = p ++ [i] then some r else tableAt m pt q := by
  have hi : i < 512 := hp.digits i (by simp)
  obtain ⟨hTake, hTables⟩ := h.take hFree
  by_cases hPre : p ++ [i] <+: q
  · obtain ⟨s, rfl⟩ := hPre
    have hNew : tableAt (m.grow next r x i) pt (p ++ [i]) = some r := by
      have hOld : tableAt (m.grow next r x i) pt p = some x := by
        rw [Mem.grow, tableAt_setWord hTake hp.init ((hTables p hp.init).trans hx) hi hp.init, hTables p hp.init, hx]
        intro hBad
        have hLe := hBad.length_le
        rw [List.length_append, List.length_singleton] at hLe
        omega
      rw [tableAt_snoc, hOld]
      exact child_grow h hFree hp
    have hBefore : tableAt m pt (p ++ [i]) = none := by
      rw [tableAt_snoc, hx]
      exact hEmpty
    rw [tableAt_append, hNew, tableAt_append m, hBefore, Option.bind_some, Option.bind_none]
    cases s with
    | nil => simp [tableAt]
    | cons j s =>
      have hChild : child (m.grow next r x i) r j = none := by
        rw [child, word_grow_new h hFree hp hx j]
        rfl
      rw [tableAt, hChild, if_neg (by simp), Option.bind_none]
  · have hne : q ≠ p ++ [i] := fun hEq => hPre (hEq ▸ List.prefix_refl _)
    rw [if_neg hne, Mem.grow,
      tableAt_setWord hTake hp.init ((hTables p hp.init).trans hx) hi hq hPre, hTables q hq]

/-- The map is the same. -/
theorem Deeper.grow : Deeper pt m (m.grow next r x i) := by
  have hTables : ∀ q, IsPath q → tableAt (m.grow next r x i) pt q = if q = p ++ [i] then some r else tableAt m pt q :=
    fun q hq => tableAt_grow h hFree hp hx hEmpty hq
  have hi : i < 512 := hp.digits i (by simp)
  have hBefore : tableAt m pt (p ++ [i]) = none := by
    rw [tableAt_snoc, hx]
    exact hEmpty
  have hr : r ∈ m.freelist := by
    rw [hFree]
    exact List.mem_cons_self
  obtain ⟨hTake, -⟩ := h.take hFree
  have hRest : ∀ q t, IsPath q → q ≠ p ++ [i] → tableAt (m.grow next r x i) pt q = some t → tableAt m pt q = some t := by
    intro q t hq hne ht
    rwa [hTables q hq, if_neg hne] at ht
  have hNew : ∀ t, tableAt (m.grow next r x i) pt (p ++ [i]) = some t → t = r := by
    intro t ht
    rw [hTables _ hp, if_pos rfl] at ht
    exact (Option.some.inj ht).symm
  refine ⟨⟨fun q q' t hq hq' ht ht' => ?_, fun q t hq ht hMem => ?_, hTake.nodup, hTake.pages⟩, fun q t hq ht => ?_,
    fun va hva => ?_⟩
  · -- only the new path leads to `r`
    by_cases hqp : q = p ++ [i]
    · by_cases hqp' : q' = p ++ [i]
      · rw [hqp, hqp']
      · rw [hqp] at ht
        have hOld := hRest q' t hq' hqp' ht'
        rw [hNew t ht] at hOld
        exact absurd hr (h.taken q' r hq' hOld)
    · by_cases hqp' : q' = p ++ [i]
      · rw [hqp'] at ht'
        have hOld := hRest q t hq hqp ht
        rw [hNew t ht'] at hOld
        exact absurd hr (h.taken q r hq hOld)
      · exact h.distinct q q' t hq hq' (hRest q t hq hqp ht) (hRest q' t hq' hqp' ht')
  · have hNodup := h.nodup
    rw [hFree] at hNodup
    by_cases hqp : q = p ++ [i]
    · rw [hqp] at ht
      rw [hNew t ht] at hMem
      exact (List.nodup_cons.mp hNodup).1 hMem
    · refine h.taken q t hq (hRest q t hq hqp ht) ?_
      rw [hFree]
      exact List.mem_cons_of_mem r hMem
  · rw [hTables q hq, if_neg, ht]
    intro hqp
    rw [hqp, hBefore] at ht
    cases ht
  · rw [translate_eq hva, translate_eq hva, hTables _ (isPath_path va)]
    by_cases hqp : path va = p ++ [i]
    · rw [if_pos hqp, hqp, hBefore, Option.bind_some, Option.bind_none, word_grow_new h hFree hp hx]
      rfl
    · rw [if_neg hqp]
      refine Option.bind_congr fun t ht => ?_
      have htr : t ≠ r := fun hEq => h.taken _ t (isPath_path va) ht (hEq ▸ hr)
      have htx : t ≠ x := by
        intro hEq
        have hPath := h.distinct _ p t (isPath_path va) hp.init ht (hEq ▸ hx)
        have hLength := hp.length
        rw [← hPath, List.length_append, List.length_singleton] at hLength
        exact absurd hLength (Nat.not_succ_le_self 2)
      rw [Mem.grow, Mem.setWord_word hi, upd_of_ne htx, word_put_of_ne _ htr]
      rfl

end Grow

theorem wp_walkLevel_grow {level va : Nat} {Q : Option Nat → Mem → Prop} (h : WellFormed m pt)
    (hp : IsPath (p ++ [PX level va])) (hx : tableAt m pt p = some x) (hNone : Q none m)
    (hSome : ∀ c m', Deeper pt m m' → tableAt m' pt (p ++ [PX level va]) = some c → Q (some c) m') :
    wp E (walkLevel x level va true) Q m := by
  rw [walkLevel, wp_bind, wp_entry]
  by_cases hValid : (m.word x (PX level va)).valid = true
  · rw [if_pos hValid, wp_pure]
    refine hSome _ m (.refl h) ?_
    rw [tableAt_snoc, hx, Option.bind_some, child, if_pos hValid]
  · have hEmpty : child m x (PX level va) = none := by rw [child, if_neg hValid]
    rw [if_neg hValid, if_pos rfl, wp_bind, kalloc, wp_bind, wp_get]
    cases hFree : m.freelist with
    | nil => exact wp_pure.mpr (wp_pure.mpr hNone)
    | cons r next =>
      dsimp only
      rw [wp_bind, wp_modify, wp_bind, memset, wp_store, wp_pure]
      dsimp only
      rw [wp_bind, memset, wp_store, Mem.put_put, wp_bind, wp_setEntry, wp_pure]
      have hDeeper : Deeper pt m (m.grow next r x (PX level va)) := .grow h hFree hp hx hEmpty
      refine hSome r _ hDeeper ?_
      have hTable := tableAt_grow h hFree hp hx hEmpty hp
      rwa [if_pos rfl] at hTable

/-- `walk` that allocates finds a place for the entry of `va`, or runs out of pages. -/
theorem wp_walk_grow {va : Nat} {Q : Option (Nat × Nat) → Mem → Prop} (h : WellFormed m pt) (hva : va < MAXVA)
    (hNone : ∀ m', Deeper pt m m' → Q none m')
    (hSome : ∀ t m', Deeper pt m m' → tableAt m' pt (path va) = some t → Q (some (t, PX 0 va)) m') :
    wp E (walk pt va true) Q m := by
  rw [walk, wp_bind, wp_when]
  refine ⟨fun hBad => absurd hBad (by omega), fun _ => ?_⟩
  have hMid : IsPath ([] ++ [PX (1 + 1) va]) := (isPath_path va).init (i := PX 1 va)
  rw [walkLoop, wp_bind]
  refine wp_walkLevel_grow h hMid rfl (wp_pure.mpr (hNone m (.refl h))) fun c m₁ hDeeper₁ hc => ?_
  dsimp only
  rw [walkLoop, wp_bind]
  refine wp_walkLevel_grow hDeeper₁.wf (isPath_path va) hc (wp_pure.mpr (hNone m₁ hDeeper₁)) fun c' m₂ hDeeper₂ hc' => ?_
  exact wp_pure.mpr (hSome c' m₂ (hDeeper₁.trans hDeeper₂) hc')

/-! ## mappages -/

/-- From `m` to `m'` the `n` virtual pages from `v` on have been mapped to the addresses from `pa` on, and no others. -/
structure Mapped (pt v n pa : Nat) (perm : BitVec 10) (m m' : Mem) : Prop where
  wf  : WellFormed m' pt
  map : ∀ u < 2 ^ 26, translate m' pt (u * PGSIZE) =
    if v ≤ u ∧ u < v + n then some (PA2PTE (pa + (u - v) * PGSIZE) (perm ||| PTE_V)) else translate m pt (u * PGSIZE)

theorem Deeper.mapped {v pa : Nat} {perm : BitVec 10} (h : Deeper pt m m') : Mapped pt v 0 pa perm m m' where
  wf := h.wf
  map u hu := by
    rw [if_neg (by omega), h.same _ (by unfold MAXVA PGSIZE; omega)]

theorem PA2PTE_u64 (pa : Nat) (flags : BitVec 10) : PA2PTE (u64 pa) flags = PA2PTE pa flags := by
  have hWord : BitVec.ofNat 64 (u64 pa) = BitVec.ofNat 64 pa := by
    apply BitVec.eq_of_toNat_eq
    rw [BitVec.toNat_ofNat, BitVec.toNat_ofNat, u64, Nat.mod_mod]
  rw [PA2PTE, PA2PTE, hWord]

theorem Mapped.trans {v n pa : Nat} {perm : BitVec 10} {m'' : Mem} (h : Mapped pt v 1 pa perm m m')
    (h' : Mapped pt (v + 1) n (u64 (pa + PGSIZE)) perm m' m'') : Mapped pt v (n + 1) pa perm m m'' where
  wf := h'.wf
  map u hu := by
    rw [h'.map u hu, h.map u hu]
    by_cases hFirst : u = v
    · rw [if_neg (by omega), if_pos (by omega), if_pos (by omega)]
    · by_cases hRest : v + 1 ≤ u ∧ u < v + 1 + n
      · have hAddr : pa + PGSIZE + (u - (v + 1)) * PGSIZE = pa + (u - v) * PGSIZE := by
          obtain ⟨d, rfl⟩ := Nat.exists_eq_add_of_le hRest.1
          rw [show v + 1 + d - (v + 1) = d by omega, show v + 1 + d - v = d + 1 by omega]
          ring
        have hWrap : u64 (u64 (pa + PGSIZE) + (u - (v + 1)) * PGSIZE) = u64 (pa + (u - v) * PGSIZE) := by
          rw [← hAddr]
          unfold u64
          omega
        rw [if_pos hRest, if_pos (by omega), ← PA2PTE_u64, hWrap, PA2PTE_u64]
      · rw [if_neg hRest, if_neg (by omega), if_neg (by omega)]

theorem page_div (v : Nat) : v * PGSIZE / PGSIZE = v := Nat.mul_div_cancel v (by decide)

theorem page_lt {v : Nat} (h : v < 2 ^ 26) : v * PGSIZE < MAXVA := by
  unfold MAXVA PGSIZE
  omega

theorem valid_PA2PTE (pa : Nat) (perm : BitVec 10) : (PA2PTE pa (perm ||| PTE_V)).valid = true := by
  rw [Pte.valid, PA2PTE_flags]
  exact bne_iff_ne.mpr (flags_or_valid perm)

/-- The entry that `walk` has made room for is written. -/
theorem Deeper.write {v pa : Nat} {perm : BitVec 10} (h : Deeper pt m m') (hv : v < 2 ^ 26)
    (ht : tableAt m' pt (path (v * PGSIZE)) = some t) :
    Mapped pt v 1 pa perm m (m'.setWord t (PX 0 (v * PGSIZE)) (PA2PTE pa (perm ||| PTE_V))) where
  wf := by
    refine h.wf.congr (fun q hq => ?_) rfl
    exact tableAt_setWord_leaf h.wf (isPath_path _) rfl ht (px_lt 0 _) hq
  map u hu := by
    rw [translate_setWord h.wf (page_lt hv) (page_lt hu) ht, page_div, page_div, if_pos (valid_PA2PTE pa perm),
      h.same _ (page_lt hu)]
    by_cases huv : u = v
    · rw [if_pos huv, if_pos (by omega), huv, Nat.sub_self, Nat.zero_mul, Nat.add_zero]
    · rw [if_neg huv, if_neg (by omega)]

/-- The page is not mapped, so `mappages` does not panic. -/
theorem Deeper.invalid {v : Nat} (h : Deeper pt m m') (hv : v < 2 ^ 26) (hFresh : translate m pt (v * PGSIZE) = none)
    (ht : tableAt m' pt (path (v * PGSIZE)) = some t) : ¬ (m'.word t (PX 0 (v * PGSIZE))).valid = true := by
  intro hValid
  rw [← h.same _ (page_lt hv), translate_eq (page_lt hv), ht, Option.bind_some, if_pos hValid] at hFresh
  cases hFresh

theorem wp_mapLoop {v n pa : Nat} {perm : BitVec 10} {Q : Bool → Mem → Prop} (h : WellFormed m pt) (hTop : v + n < 2 ^ 26)
    (hFresh : ∀ u, v ≤ u → u ≤ v + n → translate m pt (u * PGSIZE) = none)
    (hFail : ∀ j m', j ≤ n → Mapped pt v j pa perm m m' → Q false m')
    (hOk : ∀ m', Mapped pt v (n + 1) pa perm m m' → Q true m') :
    wp E (mapLoop pt perm n (v * PGSIZE) pa) Q m := by
  have hv : v < 2 ^ 26 := by omega
  have hFirst : translate m pt (v * PGSIZE) = none := hFresh v le_rfl (by omega)
  induction n generalizing v pa m with
  | zero =>
    rw [mapLoop, wp_bind]
    refine wp_walk_grow h (page_lt hv) (fun m₁ hDeeper => ?_) fun t m₁ hDeeper ht => ?_
    · exact wp_pure.mpr (hFail 0 m₁ le_rfl hDeeper.mapped)
    · dsimp only
      rw [wp_bind, wp_entry, wp_bind, wp_when]
      refine ⟨fun hBad => absurd hBad (hDeeper.invalid hv hFirst ht), fun _ => ?_⟩
      rw [wp_bind, wp_setEntry, wp_pure]
      exact hOk _ (hDeeper.write hv ht)
  | succ n ih =>
    rw [mapLoop, wp_bind]
    refine wp_walk_grow h (page_lt hv) (fun m₁ hDeeper => ?_) fun t m₁ hDeeper ht => ?_
    · exact wp_pure.mpr (hFail 0 m₁ (Nat.zero_le _) hDeeper.mapped)
    · dsimp only
      rw [wp_bind, wp_entry, wp_bind, wp_when]
      refine ⟨fun hBad => absurd hBad (hDeeper.invalid hv hFirst ht), fun _ => ?_⟩
      have hOne : Mapped pt v 1 pa perm m (m₁.setWord t (PX 0 (v * PGSIZE)) (PA2PTE pa (perm ||| PTE_V))) := hDeeper.write hv ht
      have hRest : ∀ u, v + 1 ≤ u → u ≤ v + 1 + n →
          translate (m₁.setWord t (PX 0 (v * PGSIZE)) (PA2PTE pa (perm ||| PTE_V))) pt (u * PGSIZE) = none := by
        intro u hu hu'
        rw [hOne.map u (by omega), if_neg (by omega)]
        exact hFresh u (by omega) (by omega)
      rw [wp_bind, wp_setEntry, next_page hv]
      refine ih hOne.wf (by omega) hRest (fun j m' hj hMapped => ?_) (fun m' hMapped => ?_) (by omega)
        (hRest _ le_rfl (by omega))
      · exact hFail (j + 1) m' (by omega) (hOne.trans hMapped)
      · exact hOk m' (hOne.trans hMapped)

theorem wp_mappages_range {va size pa : Nat} {perm : BitVec 10} {Q : Bool → Mem → Prop} (h : WellFormed m pt)
    (hSize : 0 < size) (hTop : va + size ≤ MAXVA)
    (hFresh : ∀ u, va / PGSIZE ≤ u → u ≤ (va + size - 1) / PGSIZE → translate m pt (u * PGSIZE) = none)
    (hFail : ∀ j m', va / PGSIZE + j ≤ (va + size - 1) / PGSIZE → Mapped pt (va / PGSIZE) j pa perm m m' → Q false m')
    (hOk : ∀ m', Mapped pt (va / PGSIZE) ((va + size - 1) / PGSIZE - va / PGSIZE + 1) pa perm m m' → Q true m') :
    wp E (mappages pt va size pa perm) Q m := by
  rw [mappages, wp_bind, wp_when]
  refine ⟨fun hBad => absurd hBad (by omega), fun _ => ?_⟩
  have hLe : va / PGSIZE ≤ (va + size - 1) / PGSIZE := Nat.div_le_div_right (by omega)
  have hLast : (va + size - 1) / PGSIZE < 2 ^ 26 := by
    unfold MAXVA at hTop
    unfold PGSIZE
    omega
  have hCount : u64 (PGROUNDDOWN (u64 (va + size - 1)) + 2 ^ 64 - PGROUNDDOWN va) / PGSIZE =
      (va + size - 1) / PGSIZE - va / PGSIZE := by
    unfold PGROUNDDOWN u64 PGSIZE MAXVA at *
    omega
  dsimp only
  rw [hCount, PGROUNDDOWN]
  exact wp_mapLoop h (by omega) (fun u hu hu' => hFresh u hu (by omega)) (fun j m' hj => hFail j m' (by omega)) hOk

/-! ## uvmunmap -/

/-- The `n` virtual pages from `v` on are mapped; if they are to be freed, to pages that `kfree` accepts, that are different,
not free and no tables. -/
structure Removable (L : Layout) (pt : Nat) (do_free : Bool) (v n : Nat) (m : Mem) : Prop where
  mapped : ∀ u, v ≤ u → u < v + n → ∃ w, translate m pt (u * PGSIZE) = some w ∧ w.flags ≠ PTE_V
  pages  : do_free = true → ∀ u w, v ≤ u → u < v + n → translate m pt (u * PGSIZE) = some w →
    PageOk L w.pa ∧ w.pa ∉ m.freelist ∧ ∀ q, IsPath q → tableAt m pt q ≠ some w.pa
  apart  : do_free = true → ∀ u u' w w', v ≤ u → u < u' → u' < v + n → translate m pt (u * PGSIZE) = some w →
    translate m pt (u' * PGSIZE) = some w' → w.pa ≠ w'.pa

/-- From `m` to `m'` the `n` virtual pages from `v` on have been unmapped, and no others. -/
structure Unmapped (pt v n : Nat) (m m' : Mem) : Prop where
  wf  : WellFormed m' pt
  map : ∀ u < 2 ^ 26, translate m' pt (u * PGSIZE) = if v ≤ u ∧ u < v + n then none else translate m pt (u * PGSIZE)

/-- The memory when `kfree` has freed the page `x`. -/
def Mem.freed (m : Mem) (x : Nat) : Mem := { freelist := x :: m.freelist, page := upd m.page x fun _ => 1 }

theorem wp_kfree_eq {Q : Unit → Mem → Prop} (hx : PageOk L x) (h : Q () (m.freed x)) : wp E (kfree L x) Q m := by
  have hAligned := hx.aligned
  have hLow := hx.low
  have hHigh := hx.high
  rw [kfree, wp_bind, wp_when]
  refine ⟨fun hBad => absurd hBad (by omega), fun _ => ?_⟩
  rw [wp_bind, memset, wp_store, wp_modify]
  exact h

section Free

variable (h : WellFormed m pt) (hFree : x ∉ m.freelist) (hTable : ∀ q, IsPath q → tableAt m pt q ≠ some x)

include hTable in
theorem tableAt_freed (hq : IsPath q) : tableAt (m.freed x) pt q = tableAt m pt q := by
  refine tableAt_congr (fun p t hp ht => word_congr (upd_of_ne fun hEq => ?_)) hq
  rw [hEq] at ht
  exact hTable p hp ht

include h hFree hTable in
/-- A page that is no table is freed. -/
theorem WellFormed.freed (hx : PageOk L x) : Deeper pt m (m.freed x) := by
  have hTables : ∀ q, IsPath q → tableAt (m.freed x) pt q = tableAt m pt q := fun q hq => tableAt_freed hTable hq
  refine ⟨⟨fun p q t hp hq hpt hqt => ?_, fun p t hp hpt hMem => ?_, List.nodup_cons.mpr ⟨hFree, h.nodup⟩,
    fun y hy => ?_⟩, fun q t hq ht => (hTables q hq).trans ht, fun va hva => ?_⟩
  · exact h.distinct p q t hp hq (hTables p hp ▸ hpt) (hTables q hq ▸ hqt)
  · rw [hTables p hp] at hpt
    rcases List.mem_cons.mp hMem with hEq | hMem
    · exact hTable p hp (hEq ▸ hpt)
    · exact h.taken p t hp hpt hMem
  · rcases List.mem_cons.mp hy with rfl | hy
    · exact ⟨hx.aligned, hx.lt⟩
    · exact h.pages y hy
  · rw [translate_eq hva, translate_eq hva, hTables _ (isPath_path va)]
    refine Option.bind_congr fun t ht => ?_
    have hWord : (m.freed x).word t = m.word t := word_congr (upd_of_ne fun hEq => hTable _ (isPath_path va) (hEq ▸ ht))
    rw [hWord]

end Free

theorem Deeper.unmap {v : Nat} (h : Deeper pt m m') (hv : v < 2 ^ 26) (ht : tableAt m' pt (path (v * PGSIZE)) = some t) :
    Unmapped pt v 1 m (m'.setWord t (PX 0 (v * PGSIZE)) 0) where
  wf := by
    refine h.wf.congr (fun q hq => ?_) rfl
    exact tableAt_setWord_leaf h.wf (isPath_path _) rfl ht (px_lt 0 _) hq
  map u hu := by
    have hZero : ¬ (0 : Pte).valid = true := by decide
    rw [translate_setWord h.wf (page_lt hv) (page_lt hu) ht, page_div, page_div, if_neg hZero, h.same _ (page_lt hu)]
    by_cases huv : u = v
    · rw [if_pos huv, if_pos (by omega)]
    · rw [if_neg huv, if_neg (by omega)]

/-- The pages after the first one can still be removed. -/
theorem Removable.next {do_free : Bool} {v n : Nat} (h : Removable L pt do_free v (n + 1) m) (hTop : v + (n + 1) ≤ 2 ^ 26)
    (hUnmapped : Unmapped pt v 1 m m') (hTables : ∀ q, IsPath q → tableAt m' pt q = tableAt m pt q)
    (hList : ∀ y ∈ m'.freelist, y ∈ m.freelist ∨ do_free = true ∧ ∃ w, translate m pt (v * PGSIZE) = some w ∧ y = w.pa) :
    Removable L pt do_free (v + 1) n m' := by
  have hSame : ∀ u, v + 1 ≤ u → u < v + 1 + n → translate m' pt (u * PGSIZE) = translate m pt (u * PGSIZE) := by
    intro u hu hu'
    rw [hUnmapped.map u (by omega), if_neg (by omega)]
  refine ⟨fun u hu hu' => ?_, fun hDo u w hu hu' hw => ?_, fun hDo u u' w w' hu huu' hu' hw hw' => ?_⟩
  · rw [hSame u hu hu']
    exact h.mapped u (by omega) (by omega)
  · rw [hSame u hu hu'] at hw
    obtain ⟨hOk, hFree, hTable⟩ := h.pages hDo u w (by omega) (by omega) hw
    refine ⟨hOk, fun hMem => ?_, fun q hq => hTables q hq ▸ hTable q hq⟩
    rcases hList _ hMem with hMem | ⟨-, w', hw', hEq⟩
    · exact hFree hMem
    · exact h.apart hDo v u w' w le_rfl (by omega) (by omega) hw' hw hEq.symm
  · rw [hSame u hu (by omega)] at hw
    rw [hSame u' (by omega) hu'] at hw'
    exact h.apart hDo u u' w w' (by omega) huu' (by omega) hw hw'

theorem wp_unmapLoop_map {do_free : Bool} {v n last : Nat} {Q : Unit → Mem → Prop} (h : WellFormed m pt)
    (hLast : last = (v + n) * PGSIZE) (hTop : v + n ≤ 2 ^ 26) (hRem : Removable L pt do_free v n m)
    (hQ : ∀ m', Unmapped pt v n m m' → Q () m') : wp E (unmapLoop L pt last do_free n (v * PGSIZE)) Q m := by
  induction n generalizing v m with
  | zero =>
    refine wp_pure.mpr (hQ m ⟨h, fun u hu => ?_⟩)
    rw [if_neg (by omega)]
  | succ n ih =>
    have hv : v < 2 ^ 26 := by omega
    obtain ⟨w, hw, hFlags⟩ := hRem.mapped v le_rfl (by omega)
    obtain ⟨t, ht, hEntry, hValid⟩ := translate_some (page_lt hv) hw
    have hTurn : v * PGSIZE < last := by
      rw [hLast]
      exact Nat.mul_lt_mul_of_pos_right (by omega) (by decide)
    -- the page is freed or not, then its entry is cleared and the loop goes on
    have hNext : ∀ m₁, Deeper pt m m₁ → (∀ q, IsPath q → tableAt m₁ pt q = tableAt m pt q) →
        (∀ y ∈ m₁.freelist, y ∈ m.freelist ∨ do_free = true ∧ ∃ w, translate m pt (v * PGSIZE) = some w ∧ y = w.pa) →
        wp E (unmapLoop L pt last do_free n (u64 (v * PGSIZE + PGSIZE))) Q (m₁.setWord t (PX 0 (v * PGSIZE)) 0) := by
      intro m₁ hDeeper hTables hList
      have ht₁ : tableAt m₁ pt (path (v * PGSIZE)) = some t := (hTables _ (isPath_path _)).trans ht
      have hOne := hDeeper.unmap hv ht₁
      rw [next_page hv]
      refine ih hOne.wf (by rw [hLast]; congr 1; omega) (by omega) (hRem.next hTop hOne (fun q hq => ?_) hList) fun m' hRest => ?_
      · rw [tableAt_setWord_leaf hDeeper.wf (isPath_path _) rfl ht₁ (px_lt 0 _) hq, hTables q hq]
      · refine hQ m' ⟨hRest.wf, fun u hu => ?_⟩
        rw [hRest.map u hu, hOne.map u hu]
        by_cases huv : u = v
        · rw [if_neg (by omega), if_pos (by omega), if_pos (by omega)]
        · by_cases hIn : v + 1 ≤ u ∧ u < v + 1 + n
          · rw [if_pos hIn, if_pos (by omega)]
          · rw [if_neg hIn, if_neg (by omega), if_neg (by omega)]
    rw [unmapLoop, wp_when]
    refine ⟨fun _ => ?_, fun hBad => absurd hTurn hBad⟩
    rw [wp_bind]
    refine wp_walk_path (page_lt hv) ?_
    rw [ht]
    simp only [Option.map_some, wp_bind, wp_entry, wp_when, hEntry, hValid, Bool.not_true, Bool.false_eq_true]
    refine ⟨False.elim, fun _ => ⟨fun hBad => absurd hBad hFlags, fun _ => ⟨fun hDo => ?_, fun hDo => ?_⟩⟩⟩
    · obtain ⟨hOk, hFree, hTable⟩ := hRem.pages hDo v w le_rfl (by omega) hw
      refine wp_kfree_eq hOk ?_
      rw [wp_setEntry]
      refine hNext _ (h.freed hFree hTable hOk) (fun q hq => tableAt_freed hTable hq) fun y hy => ?_
      exact (List.mem_cons.mp hy).symm.imp_right fun hEq => ⟨hDo, w, hw, hEq⟩
    · rw [wp_setEntry]
      exact hNext m (.refl h) (fun _ _ => rfl) fun y hy => .inl hy

theorem wp_uvmunmap_map {do_free : Bool} {v n : Nat} {Q : Unit → Mem → Prop} (h : WellFormed m pt) (hTop : v + n ≤ 2 ^ 26)
    (hRem : Removable L pt do_free v n m) (hQ : ∀ m', Unmapped pt v n m m' → Q () m') :
    wp E (uvmunmap L pt (v * PGSIZE) n do_free) Q m := by
  rw [uvmunmap, wp_bind, wp_when]
  refine ⟨fun hBad => absurd (Nat.mul_mod_left v PGSIZE) hBad, fun _ => ?_⟩
  refine wp_unmapLoop_map h ?_ hTop hRem hQ
  unfold u64 PGSIZE
  omega

/-! ## The tables of processes -/

theorem child_of_node {c : Nat} (h : dec (m.word t i) = .node c) : child m t i = some c := by
  obtain ⟨hValid, -, rfl⟩ := dec_node.mp h
  rw [child, if_pos hValid]

theorem child_of_empty (h : dec (m.word t i) = .empty) : child m t i = none := by
  rw [child, if_neg (by rw [dec_empty.mp h]; exact Bool.false_ne_true)]

section Tree

variable {l : Nat} {A : Multiset Nat} {f : Nat → Option Pte}

/-- A path goes on in the subtree of its first index. -/
theorem block_tableAt {S : Multiset Nat} (h : Radix.Block dec 512 m.word l t i S f) (hx : tableAt m t (i :: p) = some x) :
    ∃ c g, child m t i = some c ∧ PgTree m l c S g ∧ tableAt m c p = some x := by
  rw [tableAt] at hx
  rcases h with ⟨hEmpty, -⟩ | ⟨c, hDec, hSub⟩
  · rw [child_of_empty hEmpty] at hx
    cases hx
  · rw [child_of_node hDec, Option.bind_some] at hx
    exact ⟨c, _, child_of_node hDec, hSub, hx⟩

theorem tree_tableAt_mem (h : PgTree m l t A f) (hp : p.length ≤ l) (hDigits : ∀ i ∈ p, i < 512)
    (hx : tableAt m t p = some x) : x ∈ A := by
  induction p generalizing l t A f with
  | nil =>
    cases hx
    exact h.root_mem
  | cons i p ih =>
    obtain ⟨l, rfl⟩ := Nat.exists_eq_succ_of_ne_zero (Nat.ne_zero_of_lt hp)
    obtain ⟨S, R, rfl, hBlock, -⟩ := h.focus (hDigits i List.mem_cons_self)
    obtain ⟨c, g, -, hSub, hx⟩ := block_tableAt hBlock hx
    have hIn := ih hSub (Nat.le_of_succ_le_succ hp) (fun j hj => hDigits j (List.mem_cons_of_mem i hj)) hx
    exact Multiset.mem_add.mpr (.inl hIn)

/-- The top of a page table is not found below it. -/
theorem tree_root_unique (h : PgTree m l t A f) (hNodup : A.Nodup) (hp : p.length ≤ l) (hDigits : ∀ i ∈ p, i < 512)
    (hx : tableAt m t p = some t) : p = [] := by
  cases p with
  | nil => rfl
  | cons i p =>
    obtain ⟨l, rfl⟩ := Nat.exists_eq_succ_of_ne_zero (Nat.ne_zero_of_lt hp)
    obtain ⟨S, R, rfl, hBlock, -⟩ := h.focus (hDigits i List.mem_cons_self)
    obtain ⟨c, g, -, hSub, hx⟩ := block_tableAt hBlock hx
    have hIn := tree_tableAt_mem hSub (Nat.le_of_succ_le_succ hp) (fun j hj => hDigits j (List.mem_cons_of_mem i hj)) hx
    have hRoot : t ∈ {t} + R := Multiset.mem_add.mpr (.inl (Multiset.mem_singleton_self t))
    exact absurd hRoot (Multiset.disjoint_left.mp (Multiset.nodup_add.mp hNodup).2.2 hIn)

/-- Different indices lead to different tables. -/
theorem tree_tableAt_inj (h : PgTree m l t A f) (hNodup : A.Nodup) (hp : p.length ≤ l) (hq : q.length ≤ l)
    (hDigits : ∀ i ∈ p, i < 512) (hDigits' : ∀ i ∈ q, i < 512) (hx : tableAt m t p = some x) (hx' : tableAt m t q = some x) :
    p = q := by
  induction p generalizing l t A f q with
  | nil =>
    obtain rfl := Option.some.inj hx
    exact (tree_root_unique h hNodup hq hDigits' hx').symm
  | cons i p ih =>
    cases q with
    | nil =>
      obtain rfl := Option.some.inj hx'
      exact tree_root_unique h hNodup hp hDigits hx
    | cons j q =>
      obtain ⟨l, rfl⟩ := Nat.exists_eq_succ_of_ne_zero (Nat.ne_zero_of_lt hp)
      obtain ⟨sub, hSub⟩ := Radix.Tree.blocks h hNodup
      have hi : i < 512 := hDigits i List.mem_cons_self
      have hj : j < 512 := hDigits' j List.mem_cons_self
      have hRest : ∀ k ∈ p, k < 512 := fun k hk => hDigits k (List.mem_cons_of_mem i hk)
      have hRest' : ∀ k ∈ q, k < 512 := fun k hk => hDigits' k (List.mem_cons_of_mem j hk)
      obtain ⟨hBlock, hNodupSub, hApart⟩ := hSub i hi
      obtain ⟨c, g, hChild, hTree, hx⟩ := block_tableAt hBlock hx
      obtain ⟨c', g', hChild', hTree', hx'⟩ := block_tableAt (hSub j hj).1 hx'
      have hIn := tree_tableAt_mem hTree (Nat.le_of_succ_le_succ hp) hRest hx
      have hIn' := tree_tableAt_mem hTree' (Nat.le_of_succ_le_succ hq) hRest' hx'
      have hij : i = j := by
        by_contra hne
        exact Multiset.disjoint_left.mp (hApart j hj fun hEq => hne hEq.symm) hIn hIn'
      subst hij
      obtain rfl := Option.some.inj (hChild.symm.trans hChild')
      rw [ih hTree hNodupSub (Nat.le_of_succ_le_succ hp) (Nat.le_of_succ_le_succ hq) hRest hRest' hx hx']

/-- The page table of a process is well formed. -/
theorem PgTable.wellFormed (h : PgTable m pt A f) (hValid : Valid L A m) : WellFormed m pt where
  distinct p q t hp hq hpt hqt := tree_tableAt_inj h hValid.held hp.length hq.length hp.digits hq.digits hpt hqt
  taken p t hp hpt hMem := hValid.notMem_free (tree_tableAt_mem h hp.length hp.digits hpt) hMem
  nodup := Multiset.coe_nodup.mp (Multiset.nodup_add.mp hValid.nodup).1
  pages x hx := by
    have hOk := hValid.ok x (Multiset.mem_add.mpr (.inl hx))
    exact ⟨hOk.aligned, hOk.lt⟩

end Tree

/-- A page table is a finite map from virtual pages to entries. `mappages` adds a range to it, or a part of the range from the
front; `uvmunmap` takes a range out; no two pages share an entry; and an entry has room for the address and the flags. -/
theorem page_table_map (h : WellFormed m pt) :
    (∀ va size pa perm, 0 < size → va + size ≤ MAXVA →
      (∀ u, va / PGSIZE ≤ u → u ≤ (va + size - 1) / PGSIZE → translate m pt (u * PGSIZE) = none) →
      ∃ r m', mappages pt va size pa perm m = .ok (r, m') ∧
        (r = true → Mapped pt (va / PGSIZE) ((va + size - 1) / PGSIZE - va / PGSIZE + 1) pa perm m m') ∧
        (r = false → ∃ j, va / PGSIZE + j ≤ (va + size - 1) / PGSIZE ∧ Mapped pt (va / PGSIZE) j pa perm m m')) ∧
    (∀ L do_free v n, v + n ≤ 2 ^ 26 → Removable L pt do_free v n m →
      ∃ m', uvmunmap L pt (v * PGSIZE) n do_free m = .ok ((), m') ∧ Unmapped pt v n m m') ∧
    (∀ va va' e, va < MAXVA → va' < MAXVA → walk pt va false m = .ok (some e, m) → walk pt va' false m = .ok (some e, m) →
      va / PGSIZE = va' / PGSIZE) ∧
    ∀ pa flags, pa % PGSIZE = 0 → pa < 2 ^ 56 → Pte.pa (PA2PTE pa flags) = pa := by
  refine ⟨fun va size pa perm hSize hTop hFresh => ?_, fun L do_free v n hTop hRem => ?_, fun va va' e hva hva' he he' => ?_,
    fun pa flags hAligned hLt => PA2PTE_pa hAligned (hLt.trans (by decide)) flags⟩
  · refine (wp_mappages_range h hSize hTop hFresh (fun j m' hj hMapped => ?_) fun m' hMapped => ?_).total
    · exact ⟨nofun, fun _ => ⟨j, hj, hMapped⟩⟩
    · exact ⟨fun _ => hMapped, nofun⟩
  · obtain ⟨_, m', hRun, hUnmapped⟩ := (wp_uvmunmap_map h hTop hRem (Q := fun _ m' => Unmapped pt v n m m') fun _ h => h).total
    exact ⟨m', hRun, hUnmapped⟩
  · rw [walk_eq hva] at he
    rw [walk_eq hva'] at he'
    obtain ⟨t, ht, rfl⟩ := Option.map_eq_some_iff.mp (Prod.mk.inj (Except.ok.inj he)).1
    obtain ⟨t', ht', hEq⟩ := Option.map_eq_some_iff.mp (Prod.mk.inj (Except.ok.inj he')).1
    obtain ⟨rfl, hLast⟩ := Prod.mk.inj hEq
    have hPath := h.distinct _ _ t' (isPath_path va) (isPath_path va') ht ht'
    exact page_of_indices hva hva' hPath hLast.symm

/-- Three free pages and an empty page table. -/
def emptyMem : Mem where
  freelist := [PGSIZE, 2 * PGSIZE, 3 * PGSIZE]
  page _ _ := 0

theorem emptyMem_tableAt (h : tableAt emptyMem 0 p = some t) : p = [] ∧ t = 0 := by
  cases p with
  | nil => exact ⟨rfl, (Option.some.inj h).symm⟩
  | cons i p =>
    have hWord : emptyMem.word 0 i = 0 := word_zero (m := emptyMem) 0 i
    have hChild : child emptyMem 0 i = none := by
      rw [child, hWord]
      rfl
    rw [tableAt, hChild] at h
    cases h

theorem emptyMem_wellFormed : WellFormed emptyMem 0 where
  distinct p q t _ _ hp hq := by rw [(emptyMem_tableAt hp).1, (emptyMem_tableAt hq).1]
  taken p t _ hp := by
    rw [(emptyMem_tableAt hp).2]
    decide
  nodup := by decide
  pages := by decide

/-- Two pages are mapped across the end of a table. -/
theorem page_table_map_empty : ∃ r m', mappages 0 (511 * PGSIZE) (2 * PGSIZE) PGSIZE PTE_R emptyMem = .ok (r, m') ∧
    (r = true → Mapped 0 511 2 PGSIZE PTE_R emptyMem m') := by
  have hFresh : ∀ u, 511 * PGSIZE / PGSIZE ≤ u → u ≤ (511 * PGSIZE + 2 * PGSIZE - 1) / PGSIZE →
      translate emptyMem 0 (u * PGSIZE) = none := by
    intro u _ hu
    rw [translate_eq (page_lt (lt_of_le_of_lt hu (by decide)))]
    cases hTable : tableAt emptyMem 0 (path (u * PGSIZE)) with
    | none => rfl
    | some t => exact absurd (emptyMem_tableAt hTable).1 (List.cons_ne_nil _ _)
  obtain ⟨r, m', hRun, hOk, -⟩ := (page_table_map emptyMem_wellFormed).1 (511 * PGSIZE) (2 * PGSIZE) PGSIZE PTE_R
    (by decide) (by decide) hFresh
  exact ⟨r, m', hRun, hOk⟩

end Xv6.Vm
