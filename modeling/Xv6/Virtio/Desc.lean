import Xv6.Virtio.Model

/-!
# xv6 — the descriptors of the disk driver

What the functions on descriptors do: `alloc3_desc` takes three different free descriptors or leaves
every descriptor as free as it was (`alloc3_desc_spec`), and on a chain as `virtio_disk_rw` formats it
`free_chain` frees its three descriptors and no other one (`finish_spec`).

`DescInv` is the partition of the descriptors: into the free ones and those of the chains of
processes. It only depends on `free` and on which process has which chain.
-/

namespace Xv6

variable {d : VDisk} {t : VChain} {i p : Nat}

namespace VDisk

/-! ## Allocation -/

/-- The descriptors `idx` are no longer free. -/
def take (d : VDisk) (idx : List Nat) : VDisk :=
  { d with free := fun i => d.free i && !decide (i ∈ idx) }

theorem take_nil (d : VDisk) : d.take [] = d := by
  simp [take]

/-- `alloc_desc` after the descriptors `idx` have been taken. -/
theorem alloc_desc_take (d : VDisk) (idx : List Nat) :
    (∃ i, i < NUM ∧ d.free i = true ∧ i ∉ idx ∧
      (d.take idx).alloc_desc = some (i, d.take (idx ++ [i]))) ∨
    (d.take idx).alloc_desc = none := by
  unfold alloc_desc
  cases hFind : (List.range NUM).find? fun i => (d.take idx).free i with
  | none => exact .inr rfl
  | some i =>
    have hFree : (d.take idx).free i = true := List.find?_some (p := fun i => (d.take idx).free i) hFind
    have hMem := List.mem_of_find?_eq_some hFind
    simp only [take, Bool.and_eq_true, Bool.not_eq_true', decide_eq_false_iff_not] at hFree
    refine .inl ⟨i, List.mem_range.mp hMem, hFree.1, hFree.2, ?_⟩
    simp only [Option.map_some, take, Option.some.injEq, Prod.mk.injEq, VDisk.mk.injEq, true_and,
      and_true]
    funext j
    by_cases hj : j = i <;> simp [hj]

/-- `d'` is `d`, but for the contents of free descriptors. -/
structure Cleared (d d' : VDisk) : Prop where
  eq   : d' = { d with desc := d'.desc }
  desc : ∀ i, d.free i = false → d'.desc i = d.desc i

theorem Cleared.refl (d : VDisk) : d.Cleared d := ⟨rfl, fun _ _ => rfl⟩

theorem free_descs_take {idx : List Nat} (hNodup : idx.Nodup)
    (hIdx : ∀ i ∈ idx, i < NUM ∧ d.free i = true) :
    ∃ d', (d.take idx).free_descs idx = .ok d' ∧ d.Cleared d' := by
  -- each turn gives the first descriptor back
  induction idx generalizing d with
  | nil => exact ⟨d, by rw [take_nil]; rfl, .refl d⟩
  | cons i rest ih =>
    obtain ⟨hNotMem, hRest⟩ := List.nodup_cons.mp hNodup
    obtain ⟨hLt, hFree⟩ := hIdx i List.mem_cons_self
    have hOne : (d.take (i :: rest)).free_desc i =
        .ok (({ d with desc := upd d.desc i ⟨.null, 0, 0, 0⟩ } : VDisk).take rest) := by
      rw [free_desc, if_neg (by omega), if_neg (by simp [take])]
      simp only [take, Except.ok.injEq, VDisk.mk.injEq, and_true]
      funext j
      by_cases hj : j = i
      · subst hj
        simp [hFree, hNotMem]
      · simp [hj]
    obtain ⟨d', hLoop, hCleared⟩ := ih (d := { d with desc := upd d.desc i ⟨.null, 0, 0, 0⟩ }) hRest
      fun j hj => hIdx j (List.mem_cons_of_mem i hj)
    refine ⟨d', ?_, ?_, fun j hj => ?_⟩
    · rw [free_descs, List.foldlM_cons, hOne]
      exact hLoop
    · rw [hCleared.eq]
    · have hne : j ≠ i := fun h => by rw [h, hFree] at hj; cases hj
      rw [hCleared.desc j hj]
      exact upd_of_ne hne

/-- What `alloc3_desc` did: it took the descriptors `idx`, or it gave back what it took. -/
theorem alloc_loop_spec {n : Nat} {idx : List Nat} (hNodup : idx.Nodup)
    (hIdx : ∀ i ∈ idx, i < NUM ∧ d.free i = true) :
    (∃ idx', idx'.length = idx.length + n ∧ idx'.Nodup ∧
      (∀ i ∈ idx', i < NUM ∧ d.free i = true) ∧
      alloc_loop n (d.take idx) idx = .ok (some idx', d.take idx')) ∨
    ∃ d', alloc_loop n (d.take idx) idx = .ok (none, d') ∧ d.Cleared d' := by
  induction n generalizing idx with
  | zero => exact .inl ⟨idx, rfl, hNodup, hIdx, rfl⟩
  | succ n ih =>
    rcases d.alloc_desc_take idx with ⟨i, hLt, hFree, hNotMem, hAlloc⟩ | hAlloc
    · have hNodup' : (idx ++ [i]).Nodup := by
        rw [List.nodup_append]
        refine ⟨hNodup, List.nodup_singleton i, fun a ha b hb hab => hNotMem ?_⟩
        rwa [← List.mem_singleton.mp hb, ← hab]
      have hIdx' : ∀ j ∈ idx ++ [i], j < NUM ∧ d.free j = true := fun j hj => by
        rcases List.mem_append.mp hj with hj | hj
        · exact hIdx j hj
        · rw [List.mem_singleton.mp hj]
          exact ⟨hLt, hFree⟩
      rcases ih hNodup' hIdx' with ⟨idx', hLen, hRest⟩ | hFail
      · refine .inl ⟨idx', ?_, ?_⟩
        · simp only [List.length_append, List.length_singleton] at hLen
          omega
        · simpa only [alloc_loop, hAlloc] using hRest
      · right
        simpa only [alloc_loop, hAlloc] using hFail
    · obtain ⟨d', hFree, hCleared⟩ := free_descs_take hNodup hIdx
      right
      exact ⟨d', by simp only [alloc_loop, hAlloc, hFree]; rfl, hCleared⟩

theorem alloc3_desc_spec (d : VDisk) :
    (∃ t : VChain, t.idx.Nodup ∧ (∀ i ∈ t.idx, i < NUM ∧ d.free i = true) ∧
      d.alloc3_desc = .ok (some [t.fst, t.snd, t.trd], d.take t.idx)) ∨
    ∃ d', d.alloc3_desc = .ok (none, d') ∧ d.Cleared d' := by
  have hSpec := alloc_loop_spec (n := 3) (d := d) List.nodup_nil (fun _ h => absurd h List.not_mem_nil)
  rw [take_nil] at hSpec
  rcases hSpec with ⟨idx, hLen, hNodup, hIdx, hLoop⟩ | hFail
  · obtain ⟨i, j, k, rfl⟩ := List.length_eq_three.mp hLen
    exact .inl ⟨⟨i, j, k⟩, hNodup, hIdx, hLoop⟩
  · exact .inr hFail

/-! ## A formatted chain -/

/-- The chain `t` of a request `r` as `virtio_disk_rw` formats it, as far as anything depends on it. -/
structure Chained (d : VDisk) (r : VReq) (t : VChain) : Prop where
  next₀  : (d.desc t.fst).next = t.snd
  flags₀ : (d.desc t.fst).flags &&& VRING_DESC_F_NEXT ≠ 0
  next₁  : (d.desc t.snd).next = t.trd
  flags₁ : (d.desc t.snd).flags &&& VRING_DESC_F_NEXT ≠ 0
  flags₂ : (d.desc t.trd).flags &&& VRING_DESC_F_NEXT = 0
  addr₂  : (d.desc t.trd).addr = .status t.fst
  buf    : (d.info t.fst).b = some r.b

theorem Chained.statusOf {r : VReq} (h : d.Chained r t) :
    d.statusOf t.fst = .status t.fst := by
  rw [VDisk.statusOf, h.next₀, h.next₁, h.addr₂]

theorem Chained.congr {d' : VDisk} {r : VReq} (h : d.Chained r t)
    (hDesc : ∀ i ∈ t.idx, d'.desc i = d.desc i) (hInfo : (d'.info t.fst).b = (d.info t.fst).b) :
    d'.Chained r t := by
  have h₀ := hDesc t.fst (by simp [VChain.idx])
  have h₁ := hDesc t.snd (by simp [VChain.idx])
  have h₂ := hDesc t.trd (by simp [VChain.idx])
  constructor
  · rw [h₀, h.next₀]
  · rw [h₀]
    exact h.flags₀
  · rw [h₁, h.next₁]
  · rw [h₁]
    exact h.flags₁
  · rw [h₂, h.flags₂]
  · rw [h₂, h.addr₂]
  · rw [hInfo, h.buf]

theorem submit_chained (d : VDisk) (r : VReq) (hNodup : t.idx.Nodup) :
    (d.submit r t).Chained r t := by
  obtain ⟨h₀, h₁⟩ : (t.fst ≠ t.snd ∧ t.fst ≠ t.trd) ∧ t.snd ≠ t.trd := by
    simpa [VChain.idx] using hNodup
  constructor
  · simp [submit, h₀]
  · simp [submit, h₀]
  · simp [submit, h₁]
  · cases hWrite : r.write <;> simp [submit, h₁, hWrite]
  · simp [submit]
  · simp [submit]
  · simp [submit]

theorem submit_desc (d : VDisk) (r : VReq) (h : i ∉ t.idx) :
    (d.submit r t).desc i = d.desc i := by
  obtain ⟨h₀, h₁, h₂⟩ : i ≠ t.fst ∧ i ≠ t.snd ∧ i ≠ t.trd := by
    simpa [VChain.idx] using h
  simp [submit, h₀, h₁, h₂]

/-- The state after `free_desc`. -/
def clear (d : VDisk) (i : Nat) : VDisk :=
  { d with
    desc := upd d.desc i { addr := .null, len := 0, flags := 0, next := 0 }
    free := upd d.free i true }

theorem free_desc_ok (hLt : i < NUM) (hTaken : d.free i = false) :
    d.free_desc i = .ok (d.clear i) := by
  rw [free_desc, if_neg (by omega), if_neg (by simp [hTaken])]
  rfl

theorem free_chain_next {n fuel : Nat} (hLt : i < NUM) (hTaken : d.free i = false)
    (hFlag : (d.desc i).flags &&& VRING_DESC_F_NEXT ≠ 0) (hNext : (d.desc i).next = n) :
    d.free_chain (fuel + 1) i = (d.clear i).free_chain fuel n := by
  rw [free_chain, free_desc_ok hLt hTaken, hNext]
  exact if_pos hFlag

theorem free_chain_last {fuel : Nat} (hLt : i < NUM) (hTaken : d.free i = false)
    (hFlag : (d.desc i).flags &&& VRING_DESC_F_NEXT = 0) :
    d.free_chain (fuel + 1) i = .ok (d.clear i) := by
  rw [free_chain, free_desc_ok hLt hTaken]
  exact if_neg (not_not.mpr hFlag)

/-- The state after the end of `virtio_disk_rw`, for the chain `t`. -/
def freed (d : VDisk) (t : VChain) : VDisk :=
  let d := { d with info := upd d.info t.fst { d.info t.fst with b := none } }
  ((d.clear t.fst).clear t.snd).clear t.trd

theorem finish_spec {r : VReq} (h : d.Chained r t) (hNodup : t.idx.Nodup)
    (hTaken : ∀ i ∈ t.idx, i < NUM ∧ d.free i = false) : d.finish t = .ok (d.freed t) := by
  obtain ⟨⟨h₀, h₁⟩, h₂⟩ : (t.fst ≠ t.snd ∧ t.fst ≠ t.trd) ∧ t.snd ≠ t.trd := by
    simpa [VChain.idx] using hNodup
  obtain ⟨hLt₀, hFree₀⟩ := hTaken t.fst (by simp [VChain.idx])
  obtain ⟨hLt₁, hFree₁⟩ := hTaken t.snd (by simp [VChain.idx])
  obtain ⟨hLt₂, hFree₂⟩ := hTaken t.trd (by simp [VChain.idx])
  unfold finish freed
  generalize upd d.info t.fst { d.info t.fst with b := none } = info
  rw [free_chain_next (d := { d with info }) hLt₀ hFree₀ h.flags₀ h.next₀,
    free_chain_next (n := t.trd) hLt₁ (by simp [clear, h₀.symm, hFree₁])
      (by simpa [clear, h₀.symm] using h.flags₁) (by simp [clear, h₀.symm, h.next₁]),
    free_chain_last hLt₂ (by simp [clear, h₁.symm, h₂.symm, hFree₂])
      (by simpa [clear, h₁.symm, h₂.symm] using h.flags₂)]

theorem freed_desc (d : VDisk) (h : i ∉ t.idx) :
    (d.freed t).desc i = d.desc i := by
  obtain ⟨h₀, h₁, h₂⟩ : i ≠ t.fst ∧ i ≠ t.snd ∧ i ≠ t.trd := by
    simpa [VChain.idx] using h
  simp [freed, clear, h₀, h₁, h₂]

theorem freed_free (d : VDisk) (t : VChain) (i : Nat) :
    (d.freed t).free i = (d.free i || decide (i ∈ t.idx)) := by
  by_cases hi : i ∈ t.idx
  · have hAny : i = t.fst ∨ i = t.snd ∨ i = t.trd := by simpa [VChain.idx] using hi
    simp only [freed, clear, upd_apply, hi, decide_true, Bool.or_true]
    split
    · rfl
    · split
      · rfl
      · split
        · rfl
        · tauto
  · obtain ⟨h₀, h₁, h₂⟩ : i ≠ t.fst ∧ i ≠ t.snd ∧ i ≠ t.trd := by
      simpa [VChain.idx] using hi
    simp [freed, clear, h₀, h₁, h₂, hi]

end VDisk

/-! ## The partition -/

/-- The descriptors `free` and the chains of processes partition the descriptors. -/
structure DescInv (free : Nat → Bool) (chain : Nat → Option VChain) : Prop where
  range  : ∀ {p t}, chain p = some t → ∀ i ∈ t.idx, i < NUM
  nodup  : ∀ {p t}, chain p = some t → t.idx.Nodup
  unique : ∀ {p q t u i}, chain p = some t → chain q = some u → i ∈ t.idx → i ∈ u.idx → p = q
  taken  : ∀ {i}, i < NUM → (free i = false ↔ ∃ p t, chain p = some t ∧ i ∈ t.idx)

namespace DescInv

variable {free : Nat → Bool} {chain : Nat → Option VChain}

theorem not_free (h : DescInv free chain) (hp : chain p = some t) :
    ∀ i ∈ t.idx, i < NUM ∧ free i = false := fun i hi =>
  ⟨h.range hp i hi, (h.taken (h.range hp i hi)).mpr ⟨p, t, hp, hi⟩⟩

/-- Another process's chain has none of the descriptors of `t`. -/
theorem notMem (h : DescInv free chain) {q : Nat} {u : VChain} (hp : chain p = some t)
    (hq : chain q = some u) (hne : q ≠ p) (hi : i ∈ u.idx) : i ∉ t.idx :=
  fun ht => hne (h.unique hq hp hi ht)

theorem take (h : DescInv free chain) (hp : chain p = none)
    (hNodup : t.idx.Nodup) (hFree : ∀ i ∈ t.idx, i < NUM ∧ free i = true) :
    DescInv (fun i => free i && !decide (i ∈ t.idx)) (upd chain p (some t)) := by
  -- a descriptor of another chain is not free, so it is not one of `t`
  have hOther : ∀ {q u i}, chain q = some u → i ∈ u.idx → i ∉ t.idx := fun hq hi ht => by
    have hTaken := (h.not_free hq _ hi).2
    rw [(hFree _ ht).2] at hTaken
    cases hTaken
  constructor
  · intro q u hq
    rcases upd_some_eq_some.mp hq with ⟨-, rfl⟩ | ⟨-, hq⟩
    · exact fun i hi => (hFree i hi).1
    · exact h.range hq
  · intro q u hq
    rcases upd_some_eq_some.mp hq with ⟨-, rfl⟩ | ⟨-, hq⟩
    · exact hNodup
    · exact h.nodup hq
  · intro q q' u u' i hq hq' hi hi'
    rcases upd_some_eq_some.mp hq with ⟨hp₁, rfl⟩ | ⟨-, hq₁⟩ <;>
      rcases upd_some_eq_some.mp hq' with ⟨hp₂, rfl⟩ | ⟨-, hq₂⟩
    · rw [hp₁, hp₂]
    · exact absurd hi (hOther hq₂ hi')
    · exact absurd hi' (hOther hq₁ hi)
    · exact h.unique hq₁ hq₂ hi hi'
  · intro i hLt
    by_cases hi : i ∈ t.idx
    · simp only [hi, decide_true, Bool.not_true, Bool.and_false, true_iff]
      exact ⟨p, t, upd_self .., hi⟩
    · simp only [hi, decide_false, Bool.not_false, Bool.and_true]
      rw [h.taken hLt]
      constructor
      · rintro ⟨q, u, hq, hu⟩
        refine ⟨q, u, ?_, hu⟩
        rwa [upd_of_ne fun hqp => by rw [hqp, hp] at hq; cases hq]
      · rintro ⟨q, u, hq, hu⟩
        rcases upd_some_eq_some.mp hq with ⟨-, rfl⟩ | ⟨-, hq⟩
        · exact absurd hu hi
        · exact ⟨q, u, hq, hu⟩

theorem give (h : DescInv free chain) (hp : chain p = some t)
    {free' : Nat → Bool} (hFree' : ∀ i, free' i = (free i || decide (i ∈ t.idx))) :
    DescInv free' (upd chain p none) := by
  refine ⟨fun hq => h.range (upd_none_eq_some.mp hq).2, fun hq => h.nodup (upd_none_eq_some.mp hq).2,
    fun hq hq' => h.unique (upd_none_eq_some.mp hq).2 (upd_none_eq_some.mp hq').2, fun {i} hLt => ?_⟩
  rw [hFree', Bool.or_eq_false_iff, h.taken hLt, decide_eq_false_iff_not]
  constructor
  · rintro ⟨⟨q, u, hq, hu⟩, hi⟩
    have hqp : q ≠ p := fun hqp => by
      subst hqp
      rw [hp] at hq
      cases hq
      exact hi hu
    exact ⟨q, u, by rwa [upd_of_ne hqp], hu⟩
  · rintro ⟨q, u, hq, hu⟩
    obtain ⟨hne, hq⟩ := upd_none_eq_some.mp hq
    exact ⟨⟨q, u, hq, hu⟩, h.notMem hp hq hne hu⟩

end DescInv

end Xv6
