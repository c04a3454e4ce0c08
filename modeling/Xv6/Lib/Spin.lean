import Xv6.Lib.Upd

/-!
# Locks and the places of their holders

A family of locks, each free or held by a party, against the place of each party in its program,
from which the lock it holds can be read off. `LockEff` is what one party does to locks in one
step; `LockEff.agree` says that the two views stay in step.
-/

variable {ι κ : Type} [DecidableEq ι]

/-- Party `c`, at a place where it holds lock `x`, keeps, acquires or releases one; at its new
place it holds `x'`. -/
inductive LockEff (c : κ) (locks : ι → Option κ) (x : Option ι) (locks' : ι → Option κ)
    (x' : Option ι) : Prop where
  | keep (hSame : locks' = locks) (hx : x' = x)
  | acquire {i : ι} (hFree : locks i = none) (hOld : x = none)
      (hLock : locks' = upd locks i (some c)) (hNew : x' = some i)
  | release {i : ι} (hOld : x = some i) (hLock : locks' = upd locks i none) (hNew : x' = none)

theorem LockEff.agree [DecidableEq κ] {c : κ} {locks locks' : ι → Option κ} {f f' : κ → Option ι}
    (hEff : LockEff c locks (f c) locks' (f' c))
    (hLocks : ∀ i d, locks i = some d ↔ f d = some i)
    (hOther : ∀ d, d ≠ c → f' d = f d) (i : ι) (d : κ) :
    locks' i = some d ↔ f' d = some i := by
  have hi := hLocks i d
  by_cases hd : d = c
  · subst hd
    cases hEff with
    | keep hSame hx => rw [hSame, hi, hx]
    | @acquire j _ hOld hLock hNew | @release j hOld hLock hNew =>
      rw [hLock, hNew, upd_apply]
      by_cases hij : i = j
      · simp [hij]
      · rw [if_neg hij, hi, hOld]
        simp [Ne.symm hij]
  · rw [hOther d hd, ← hi]
    cases hEff with
    | keep hSame _ => rw [hSame]
    | @acquire j hFree hOld hLock hNew =>
      rw [hLock, upd_apply]
      by_cases hij : i = j
      · simp [hij, hFree, Ne.symm hd]
      · rw [if_neg hij]
    | @release j hOld hLock hNew =>
      rw [hLock, upd_apply]
      by_cases hij : i = j
      · simp [hij, (hLocks j c).mpr hOld, Ne.symm hd]
      · rw [if_neg hij]
