import Mathlib.Data.List.Chain
import Mathlib.Data.List.Nodup
import Xv6.Lib.Upd

/-!
# Circular doubly linked lists

Nodes with a `next` and a `prev` pointer, among them a head `h`. `Ring l h xs` says that the nodes
from the head through `next` are `xs` and then the head again, and that `prev` leads back. `unlink`
takes a node out, `pushFront` puts one behind the head, each with the four assignments a C program
makes. `scan` is a loop through the list up to the head; on a ring it ends and is `List.find?`.
-/

variable {α : Type}

structure Links (α : Type) where
  next : α → α
  prev : α → α

namespace Links

/-- Two neighbours. -/
def Linked (l : Links α) (a b : α) : Prop := l.next a = b ∧ l.prev b = a

structure Ring (l : Links α) (h : α) (xs : List α) : Prop where
  nodup : (h :: xs).Nodup
  chain : (h :: (xs ++ [h])).IsChain l.Linked

/-- `b->next->prev = b->prev; b->prev->next = b->next;` -/
def unlink [DecidableEq α] (l : Links α) (b : α) : Links α :=
  let l : Links α := { l with prev := upd l.prev (l.next b) (l.prev b) }
  { l with next := upd l.next (l.prev b) (l.next b) }

/-- `b->next = h.next; b->prev = &h; h.next->prev = b; h.next = b;` -/
def pushFront [DecidableEq α] (l : Links α) (h b : α) : Links α :=
  let l : Links α := { l with next := upd l.next b (l.next h) }
  let l : Links α := { l with prev := upd l.prev b h }
  let l : Links α := { l with prev := upd l.prev (l.next h) b }
  { l with next := upd l.next h b }

/-- `for(b = ..; b != &h; b = step(b)) if(p(b)) return b;`; the outer `none` says that the loop has
not ended after so many turns. -/
def scan [DecidableEq α] (step : α → α) (h : α) (p : α → Bool) : Nat → α → Option (Option α)
  | 0, _ => none
  | n + 1, b => if b = h then some none else if p b then some (some b) else scan step h p n (step b)

/-! ## Rings -/

/-- Neighbours stay neighbours when the pointers between them do. -/
theorem chain_congr {l l' : Links α} {L : List α} (h : L.IsChain l.Linked)
    (hNext : ∀ a ∈ L.dropLast, l'.next a = l.next a) (hPrev : ∀ b ∈ L.tail, l'.prev b = l.prev b) :
    L.IsChain l'.Linked := by
  induction h with
  | nil => exact .nil
  | singleton a => exact .singleton a
  | @cons_cons a b L hab hL ih =>
    refine .cons_cons ⟨?_, ?_⟩ (ih (fun c hc => hNext c ?_) fun c hc => hPrev c ?_)
    · rw [hNext a (by simp)]
      exact hab.1
    · rw [hPrev b (by simp)]
      exact hab.2
    · rw [List.dropLast_cons_cons]
      exact List.mem_cons_of_mem _ hc
    · exact List.mem_cons_of_mem _ hc

/-- The last node of a list without duplicates is not among the others. -/
theorem ne_of_mem_dropLast {L : List α} (hL : L.Nodup) {a p : α} (ha : a ∈ L.dropLast)
    (hp : p ∈ L.getLast?) : a ≠ p := by
  rintro rfl
  rw [← List.dropLast_append_getLast? a hp] at hL
  exact (List.disjoint_of_nodup_append hL) ha (List.mem_singleton_self a)

theorem ne_of_mem_tail {L : List α} (hL : L.Nodup) {a n : α} (ha : a ∈ L.tail) (hn : n ∈ L.head?) :
    a ≠ n := by
  rintro rfl
  rw [← List.cons_head?_tail hn] at hL
  exact (List.nodup_cons.mp hL).1 ha

namespace Ring

variable {l : Links α} {h : α} {xs : List α}

theorem next_mem (hl : l.Ring h xs) : l.next h ∈ (xs ++ [h]).head? := by
  have hChain := hl.chain
  rw [List.isChain_cons] at hChain
  cases hHead : (xs ++ [h]).head? with
  | none => simp at hHead
  | some n => exact congrArg some (hChain.1 n hHead).1.symm

/-- `prev` is the inverse of `next` on the nodes of the ring. -/
theorem inverse (hl : l.Ring h xs) {a : α} (ha : a ∈ h :: xs) :
    l.prev (l.next a) = a ∧ l.next (l.prev a) = a := by
  have hChain := hl.chain
  constructor
  · obtain ⟨ys, zs, hEq⟩ := List.append_of_mem ha
    rw [← List.cons_append, hEq, List.append_assoc, List.cons_append, List.isChain_append,
      List.isChain_cons] at hChain
    obtain ⟨n, hn⟩ : ∃ n, n ∈ (zs ++ [h]).head? := by cases zs <;> exact ⟨_, rfl⟩
    obtain ⟨hNext, hPrev⟩ := hChain.2.1.1 n hn
    rw [hNext, hPrev]
  · have ha' : a ∈ xs ++ [h] := by grind
    obtain ⟨ys, zs, hEq⟩ := List.append_of_mem ha'
    rw [hEq, ← List.cons_append, List.isChain_append] at hChain
    obtain ⟨p, hp⟩ : ∃ p, p ∈ (h :: ys).getLast? := ⟨_, List.getLast?_eq_some_getLast (by simp)⟩
    obtain ⟨hNext, hPrev⟩ := hChain.2.2 p hp a rfl
    rw [hPrev, hNext]

variable [DecidableEq α]

theorem unlink {ys zs : List α} {b : α} (hl : l.Ring h (ys ++ b :: zs)) :
    (l.unlink b).Ring h (ys ++ zs) := by
  have hNodup := hl.nodup
  have hChain := hl.chain
  rw [List.append_assoc, List.cons_append, ← List.cons_append, List.isChain_append] at hChain
  obtain ⟨hA, hbB, hpb⟩ := hChain
  obtain ⟨hbn, hB⟩ := List.isChain_cons.mp hbB
  have hpb' : ∀ p ∈ (h :: ys).getLast?, l.next p = b ∧ l.prev b = p := fun p hp => hpb p hp b rfl
  obtain ⟨p, hp⟩ : ∃ p, p ∈ (h :: ys).getLast? := ⟨_, List.getLast?_eq_some_getLast (by simp)⟩
  obtain ⟨n, hn⟩ : ∃ n, n ∈ (zs ++ [h]).head? := by cases zs <;> exact ⟨_, rfl⟩
  have hPrev : l.prev b = p := (hpb' p hp).2
  have hNext : l.next b = n := (hbn n hn).1
  -- what the four segments have in common is only the head
  have hpMem : p ∈ h :: ys := List.mem_of_getLast? hp
  have hnMem : n ∈ zs ++ [h] := List.mem_of_head? hn
  have hbA : b ∉ h :: ys := by grind
  have hbB : b ∉ zs ++ [h] := by grind
  have hnb : n ≠ b := fun hEq => hbB (hEq ▸ hnMem)
  have hpb : p ≠ b := fun hEq => hbA (hEq ▸ hpMem)
  have hNew : l.unlink b = ⟨upd l.next p n, upd l.prev n p⟩ := by
    simp only [Links.unlink, hNext, hPrev, upd_of_ne (Ne.symm hnb)]
  have hNodupA : (h :: ys).Nodup := by grind
  have hNodupB : (zs ++ [h]).Nodup := by grind
  refine ⟨by grind, ?_⟩
  rw [List.append_assoc, ← List.cons_append, List.isChain_append, hNew]
  refine ⟨chain_congr hA (fun a ha => ?_) fun c hc => ?_, chain_congr hB (fun a ha => ?_) fun c hc => ?_, ?_⟩
  · exact upd_of_ne (ne_of_mem_dropLast hNodupA ha hp)
  · refine upd_of_ne fun hEq => ?_
    simp only [List.tail_cons] at hc
    rw [← hEq] at hnMem
    grind
  · refine upd_of_ne fun hEq => ?_
    simp only [List.dropLast_concat] at ha
    rw [← hEq] at hpMem
    grind
  · exact upd_of_ne (ne_of_mem_tail hNodupB hc hn)
  · intro x hx y hy
    obtain rfl : p = x := Option.some.inj (hp.symm.trans hx)
    obtain rfl : n = y := Option.some.inj (hn.symm.trans hy)
    exact ⟨upd_self _ _ _, upd_self _ _ _⟩

theorem pushFront {b : α} (hl : l.Ring h xs) (hb : b ∉ h :: xs) : (l.pushFront h b).Ring h (b :: xs) := by
  have hn := hl.next_mem
  have hNodup := hl.nodup
  have hChain := (List.isChain_cons.mp hl.chain).2
  have hbh : b ≠ h := fun hEq => hb (hEq ▸ List.mem_cons_self)
  have hnMem : l.next h ∈ xs ++ [h] := List.mem_of_head? hn
  have hbn : b ≠ l.next h := fun hEq => by
    rw [← hEq] at hnMem
    grind
  have hNew : l.pushFront h b =
      ⟨upd (upd l.next b (l.next h)) h b, upd (upd l.prev b h) (l.next h) b⟩ := by
    simp only [Links.pushFront, upd_of_ne (Ne.symm hbh)]
  have hNodupB : (xs ++ [h]).Nodup := by grind
  refine ⟨by grind, ?_⟩
  rw [List.cons_append, hNew, List.isChain_cons_cons, List.isChain_cons]
  refine ⟨⟨upd_self _ _ _, ?_⟩, fun y hy => ?_, chain_congr hChain (fun a ha => ?_) fun c hc => ?_⟩
  · show upd (upd l.prev b h) (l.next h) b b = h
    rw [upd_of_ne hbn, upd_self]
  · obtain rfl : l.next h = y := Option.some.inj (hn.symm.trans hy)
    refine ⟨?_, upd_self _ _ _⟩
    show upd (upd l.next b (l.next h)) h b b = l.next h
    rw [upd_of_ne hbh, upd_self]
  · simp only [List.dropLast_concat] at ha
    show upd (upd l.next b (l.next h)) h b a = l.next a
    rw [upd_of_ne (by grind), upd_of_ne (by grind)]
  · show upd (upd l.prev b h) (l.next h) b c = l.prev c
    have hcb : c ≠ b := fun hEq => by
      have := List.mem_of_mem_tail hc
      grind
    rw [upd_of_ne (ne_of_mem_tail hNodupB hc hn), upd_of_ne hcb]

theorem scan_next_aux {a : α} {ys : List α} {p : α → Bool} (hChain : (a :: (ys ++ [h])).IsChain l.Linked)
    (hh : h ∉ ys) {n : Nat} (hn : ys.length < n) : scan l.next h p n (l.next a) = some (ys.find? p) := by
  induction ys generalizing a n with
  | nil =>
    obtain ⟨m, rfl⟩ := Nat.exists_eq_succ_of_ne_zero (by omega : n ≠ 0)
    have hNext : l.next a = h := (List.isChain_cons_cons.mp hChain).1.1
    rw [hNext, scan, if_pos rfl]
    rfl
  | cons y ys ih =>
    obtain ⟨m, rfl⟩ := Nat.exists_eq_succ_of_ne_zero (by omega : n ≠ 0)
    obtain ⟨⟨hNext, -⟩, hRest⟩ := List.isChain_cons_cons.mp hChain
    have hyh : y ≠ h := fun hEq => hh (hEq ▸ List.mem_cons_self)
    rw [hNext, scan, if_neg hyh, List.find?_cons]
    cases hp : p y with
    | true => rfl
    | false =>
      simp only [Bool.false_eq_true, if_false]
      exact ih hRest (fun hMem => hh (List.mem_cons_of_mem _ hMem)) (by simp at hn; omega)

/-- The loop through `next` finds the first node. -/
theorem scan_next (hl : l.Ring h xs) (p : α → Bool) {n : Nat} (hn : xs.length < n) :
    scan l.next h p n (l.next h) = some (xs.find? p) :=
  scan_next_aux hl.chain (List.nodup_cons.mp hl.nodup).1 hn

theorem scan_prev_aux {c : α} {ys : List α} {p : α → Bool} (hChain : (h :: (ys ++ [c])).IsChain l.Linked)
    (hh : h ∉ ys) {n : Nat} (hn : ys.length < n) :
    scan l.prev h p n (l.prev c) = some (ys.reverse.find? p) := by
  induction ys using List.reverseRecOn generalizing c n with
  | nil =>
    obtain ⟨m, rfl⟩ := Nat.exists_eq_succ_of_ne_zero (by omega : n ≠ 0)
    have hPrev : l.prev c = h := (List.isChain_cons_cons.mp hChain).1.2
    rw [hPrev, scan, if_pos rfl]
    rfl
  | append_singleton ys y ih =>
    obtain ⟨m, rfl⟩ := Nat.exists_eq_succ_of_ne_zero (by omega : n ≠ 0)
    rw [← List.cons_append, List.isChain_append] at hChain
    obtain ⟨hRest, -, hLast⟩ := hChain
    have hPrev : l.prev c = y := (hLast y (by simp [List.getLast?_cons]) c rfl).2
    have hyh : y ≠ h := fun hEq => hh (by simp [hEq])
    rw [hPrev, scan, if_neg hyh, List.reverse_append, List.reverse_singleton, List.singleton_append,
      List.find?_cons]
    cases hp : p y with
    | true => rfl
    | false =>
      simp only [Bool.false_eq_true, if_false]
      exact ih hRest (fun hMem => hh (List.mem_append_left _ hMem)) (by simp at hn; omega)

/-- The loop through `prev` finds the last one. -/
theorem scan_prev (hl : l.Ring h xs) (p : α → Bool) {n : Nat} (hn : xs.length < n) :
    scan l.prev h p n (l.prev h) = some (xs.reverse.find? p) :=
  scan_prev_aux hl.chain (List.nodup_cons.mp hl.nodup).1 hn

end Ring

end Links
