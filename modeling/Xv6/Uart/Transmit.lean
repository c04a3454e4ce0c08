import Xv6.Lib.RingBuf
import Xv6.Lib.Lts

/-!
# xv6 — the transmitter of the UART (`kernel/uart.c`)

Processes put characters into a ring of 32 with `uartputc`, and sleep while it is full; `uartstart` moves them to the
device, called by `uartputc` and by `uartintr` when the device has raised an interrupt. What is done under `uart_tx_lock` is
done by one of them at a time, but the device and `uartputc_sync`, which does not take the lock, go on meanwhile.

`uart_transmits`: no character is lost on its way to the device or overtakes another, a process sleeps only while the ring
is full, and while the ring is not empty an interrupt is due.
-/

namespace Xv6.Uart

/-- `UART_TX_BUF_SIZE` -/
abbrev SIZE : Nat := 32

/-- Where a process is; the actor 0 is `uartintr`. -/
inductive Pc where
  | out
  /-- at the `acquire` of `uartputc(c)` -/
  | call (c : UInt8)
  | asleep (c : UInt8)
  | woken (c : UInt8)
  /-- at the `acquire` of `uartintr` -/
  | intr
  | inside
  deriving DecidableEq

/-- Where the holder of `uart_tx_lock` is. -/
inductive Section where
  /-- at the test whether the ring is full -/
  | test (c : UInt8)
  /-- in the loop of `uartstart` -/
  | start
  /-- at `WriteReg(THR, c)` -/
  | send (c : UInt8)
  deriving DecidableEq

/-- `put` and `sent` are the characters that went into the ring and from it to `THR`. -/
structure Sys where
  tx      : RingBuf 64 UInt8
  hold    : Option (Nat × Section)
  pc      : Nat → Pc
  /-- `LSR_TX_IDLE` -/
  idle    : Bool
  /-- the device asks for a character by an interrupt -/
  pending : Bool
  put     : List UInt8
  sent    : List UInt8

inductive Act where
  | call (p : Nat) (c : UInt8)
  | acquire (p : Nat)
  /-- the holder of the lock goes on -/
  | go
  /-- `kill` wakes a process -/
  | kill (p : Nat) (c : UInt8)
  /-- an interrupt, for input too, gets `uartintr` to run -/
  | irq
  /-- the device has sent a character -/
  | ready
  /-- `uartputc_sync` writes to `THR`; it has seen `LSR_TX_IDLE` at some time before -/
  | sync

/-- `wakeup(&uart_tx_r)` -/
def Pc.wakeup : Pc → Pc
  | .asleep c => .woken c
  | pc => pc

/-- A step of the holder `p` of the lock. -/
def Sys.go (s : Sys) (p : Nat) : Section → Sys
  | .test c =>
    -- uart_tx_w == uart_tx_r + UART_TX_BUF_SIZE
    if s.tx.nwrite = s.tx.nread + BitVec.ofNat 64 SIZE then { s with hold := none, pc := upd s.pc p (.asleep c) }
    else { s with tx := s.tx.push SIZE c, put := s.put ++ [c], hold := some (p, .start) }
  | .start =>
    if s.tx.nread = s.tx.nwrite ∨ s.idle = false then { s with hold := none, pc := upd s.pc p .out }
    else { s with tx := s.tx.pop, pc := fun q => (s.pc q).wakeup, hold := some (p, .send (s.tx.head SIZE)) }
  | .send c => { s with sent := s.sent ++ [c], idle := false, pending := false, hold := some (p, .start) }

/-- Where a party goes on when it has got the lock. -/
def Pc.enter : Pc → Option Section
  | .call c => some (.test c)
  | .woken c => some (.test c)
  | .intr => some .start
  | _ => none

def Sys.step (s : Sys) : Act → Option (Except Unit Sys)
  | .call p c => if p ≠ 0 ∧ s.pc p = .out then some (.ok { s with pc := upd s.pc p (.call c) }) else none
  | .acquire p =>
    if s.hold = none then (s.pc p).enter.map fun k => .ok { s with hold := some (p, k), pc := upd s.pc p .inside } else none
  | .go => s.hold.map fun h => .ok (s.go h.1 h.2)
  | .kill p c => if s.pc p = .asleep c then some (.ok { s with pc := upd s.pc p (.woken c) }) else none
  | .irq => if s.pc 0 = .out then some (.ok { s with pending := false, pc := upd s.pc 0 .intr }) else none
  | .ready => if s.idle then none else some (.ok { s with idle := true, pending := true })
  | .sync => some (.ok { s with idle := false, pending := false })

def initial : Sys := ⟨⟨fun _ => 0, 0, 0⟩, none, fun _ => .out, true, false, [], []⟩

def uartLts : Lts Sys Act Unit := ⟨(· = initial), Sys.step⟩

/-- The character on its way from the ring to `THR`. -/
def Section.flight : Section → List UInt8
  | .send c => [c]
  | _ => []

/-- Nobody is in `uartstart`. -/
def Sys.Between (s : Sys) : Prop := ∀ p k, s.hold = some (p, k) → ∃ c, k = .test c

structure Inv (s : Sys) : Prop where
  fifo   : s.put = s.sent ++ s.hold.elim [] (fun h => h.2.flight) ++ s.tx.contents SIZE
  room   : s.tx.len ≤ SIZE
  holder : ∀ p k, s.hold = some (p, k) → s.pc p = .inside
  full   : ∀ p c, s.pc p = .asleep c → s.tx.len = SIZE
  going  : s.Between → s.tx.len ≠ 0 → s.idle = false ∨ s.pending = true ∨ s.pc 0 = .intr

variable {s s' : Sys} {p : Nat}

theorem Inv.init : Inv initial :=
  ⟨rfl, Nat.zero_le _, fun _ _ h => (Option.some_ne_none _ h.symm).elim, fun _ _ h => Pc.noConfusion h,
    fun _ h => absurd rfl h⟩

/-- The party `p` goes on and may take the lock or give it up; the ring is left as it is. -/
theorem Inv.move (h : Inv s) {hold : Option (Nat × Section)} {pc : Pc} {b : Bool}
    (hFlight : hold.elim [] (fun h => h.2.flight) = s.hold.elim [] (fun h => h.2.flight))
    (hHolder : ∀ q k, hold = some (q, k) → upd s.pc p pc q = .inside) (hFull : ∀ c, pc = .asleep c → s.tx.len = SIZE)
    (hGoing : (∀ q k, hold = some (q, k) → ∃ c, k = .test c) → s.tx.len ≠ 0 →
      s.idle = false ∨ b = true ∨ upd s.pc p pc 0 = .intr) :
    Inv { s with hold := hold, pc := upd s.pc p pc, pending := b } := by
  refine ⟨hFlight ▸ h.fifo, h.room, hHolder, fun q c hq => ?_, hGoing⟩
  have hq : upd s.pc p pc q = .asleep c := hq
  rw [upd] at hq
  split at hq
  · exact hFull c hq
  · exact h.full q c hq

/-- Who has the lock keeps it. -/
theorem Inv.stay (h : Inv s) {pc : Pc} (hPc : s.pc p ≠ .inside) (q : Nat) (k : Section) (hHold : s.hold = some (q, k)) :
    upd s.pc p pc q = .inside := by
  have hIn := h.holder q k hHold
  have hne : q ≠ p := fun hEq => hPc (hEq ▸ hIn)
  exact (upd_of_ne hne).trans hIn

theorem going_upd {b : Bool} {pc : Pc} (hPc : s.pc p ≠ .intr) (h : s.idle = false ∨ b = true ∨ s.pc 0 = .intr) :
    s.idle = false ∨ b = true ∨ upd s.pc p pc 0 = .intr := by
  refine h.imp_right (Or.imp_right fun hIntr => ?_)
  have hne : 0 ≠ p := fun hEq => hPc (hEq ▸ hIntr)
  exact (upd_of_ne hne).trans hIntr

theorem Pc.wakeup_ne_asleep (pc : Pc) (c : UInt8) : pc.wakeup ≠ .asleep c := by
  cases pc <;> simp [Pc.wakeup]

theorem Inv.go (h : Inv s) {k : Section} (hHold : s.hold = some (p, k)) : Inv (s.go p k) := by
  have hFifo := h.fifo
  rw [hHold, Option.elim_some] at hFifo
  have hIn := h.holder p k hHold
  cases k with
  | test c =>
    rw [Sys.go]
    split
    · next hEq =>
      have hFull := (s.tx.isFull_iff (by decide)).mp hEq
      refine h.move (by rw [hHold]; rfl) (by simp) (fun _ _ => hFull) fun _ hSome => ?_
      refine going_upd (by simp [hIn]) (h.going (fun q k' hk => ⟨c, ?_⟩) hSome)
      rw [hHold] at hk
      cases hk
      rfl
    · next hNe =>
      have hFull : s.tx.len ≠ SIZE := fun hEq => hNe ((s.tx.isFull_iff (by decide)).mpr hEq)
      have hLt : s.tx.len < SIZE := Nat.lt_of_le_of_ne h.room hFull
      have hLen : (s.tx.push SIZE c).len = s.tx.len + 1 := s.tx.len_push c (by unfold SIZE at hLt; omega)
      refine ⟨?_, hLen ▸ hLt, fun q k' hk => ?_, fun q c' hq => absurd (h.full q c' hq) hFull, fun hBetween => ?_⟩
      · show s.put ++ [c] = s.sent ++ [] ++ (s.tx.push SIZE c).contents SIZE
        rw [s.tx.contents_push c (by decide) hLt (by decide), hFifo, List.append_assoc]
        rfl
      · cases hk
        exact hIn
      · obtain ⟨_, hEq⟩ := hBetween p .start rfl
        cases hEq
  | start =>
    rw [Sys.go]
    split
    · next hStop =>
      refine h.move (by rw [hHold]; rfl) (by simp) (by simp) fun _ hSome => .inl ?_
      exact hStop.resolve_left fun hEq => hSome (s.tx.isEmpty_iff.mp hEq)
    · next hGo =>
      have hPos : 0 < s.tx.len := Nat.pos_of_ne_zero fun hEq => hGo (.inl (s.tx.isEmpty_iff.mpr hEq))
      refine ⟨?_, ?_, fun q k' hk => ?_, fun q c hq => ?_, fun hBetween => ?_⟩
      · show s.put = s.sent ++ [s.tx.head SIZE] ++ s.tx.pop.contents SIZE
        rw [hFifo, s.tx.contents_pop (by decide) hPos]
        simp [Section.flight]
      · exact (s.tx.len_pop hPos).trans_le (Nat.sub_le_of_le_add (Nat.le_succ_of_le h.room))
      · cases hk
        show (s.pc p).wakeup = .inside
        rw [hIn]
        rfl
      · -- wakeup leaves nobody asleep
        exact absurd hq ((s.pc q).wakeup_ne_asleep c)
      · obtain ⟨_, hEq⟩ := hBetween p _ rfl
        cases hEq
  | send c =>
    refine ⟨?_, h.room, fun q k' hk => ?_, h.full, fun _ _ => .inl rfl⟩
    · show s.put = s.sent ++ [c] ++ [] ++ s.tx.contents SIZE
      rw [hFifo, List.append_nil]
      rfl
    · cases hk
      exact hIn

theorem Inv.acquire (h : Inv s) (hFree : s.hold = none) {k : Section} (hk : (s.pc p).enter = some k) :
    Inv { s with hold := some (p, k), pc := upd s.pc p .inside } := by
  have hFlight : k.flight = [] := by
    cases hPc : s.pc p <;> rw [hPc] at hk <;> cases hk <;> rfl
  refine h.move (by rw [hFree]; exact hFlight) (fun q k' hHold => ?_) (by simp) fun hTest hSome => ?_
  · cases hHold
    exact upd_self ..
  · obtain ⟨c, rfl⟩ := hTest p k rfl
    refine going_upd (fun hIntr => ?_) (h.going (by simp [Sys.Between, hFree]) hSome)
    -- uartintr would be in uartstart now
    rw [hIntr] at hk
    cases hk

theorem Inv.step (h : Inv s) {a : Act} (hStep : s.step a = some (.ok s')) : Inv s' := by
  cases a with
  | call p c =>
    obtain ⟨⟨-, hOut⟩, hEq⟩ := Option.ite_none_right_eq_some.mp hStep
    cases hEq
    exact h.move rfl (h.stay (by simp [hOut])) (by simp) fun hTest hSome => going_upd (by simp [hOut]) (h.going hTest hSome)
  | acquire p =>
    obtain ⟨hFree, hMap⟩ := Option.ite_none_right_eq_some.mp hStep
    obtain ⟨k, hk, hEq⟩ := Option.map_eq_some_iff.mp hMap
    cases hEq
    exact h.acquire hFree hk
  | go =>
    obtain ⟨⟨p, k⟩, hHold, hEq⟩ := Option.map_eq_some_iff.mp hStep
    cases hEq
    exact h.go hHold
  | kill p c =>
    obtain ⟨hPc, hEq⟩ := Option.ite_none_right_eq_some.mp hStep
    cases hEq
    exact h.move rfl (h.stay (by simp [hPc])) (by simp) fun hTest hSome => going_upd (by simp [hPc]) (h.going hTest hSome)
  | irq =>
    obtain ⟨hOut, hEq⟩ := Option.ite_none_right_eq_some.mp hStep
    cases hEq
    exact h.move rfl (h.stay (by simp [hOut])) (by simp) fun _ _ => .inr (.inr (upd_self ..))
  | ready =>
    obtain ⟨-, hEq⟩ := Option.ite_none_left_eq_some.mp hStep
    cases hEq
    exact ⟨h.fifo, h.room, h.holder, h.full, fun _ _ => .inr (.inl rfl)⟩
  | sync =>
    cases hStep
    exact ⟨h.fifo, h.room, h.holder, h.full, fun _ _ => .inl rfl⟩

/-- In every run, what was put is what `THR` got, a character on its way there, and what is in the ring; who sleeps, sleeps
because the ring is full; and when the lock is free and the ring is not empty, the device is busy, and will interrupt, or
has interrupted, or `uartintr` is at its `acquire`. -/
theorem uart_transmits {tr : List Act} (h : uartLts.Run tr s) :
    s.put = s.sent ++ s.hold.elim [] (fun h => h.2.flight) ++ s.tx.contents SIZE ∧ s.tx.len ≤ SIZE ∧
    (∀ p c, s.pc p = .asleep c → s.tx.len = SIZE) ∧
    (s.hold = none → s.tx.len ≠ 0 → s.idle = false ∨ s.pending = true ∨ s.pc 0 = .intr) := by
  have hInv : Inv s := by
    refine Lts.Run.invariant (I := fun _ s => Inv s) (fun s hInit => ?_) (fun _ _ _ _ _ hInv hStep => hInv.step hStep) h
    cases hInit
    exact Inv.init
  exact ⟨hInv.fifo, hInv.room, hInv.full, fun hFree => hInv.going (by simp [Sys.Between, hFree])⟩

/-- A second character has to wait for the device, which has the first. -/
def twoChars : List Act := [.call 1 104, .acquire 1, .go, .go, .go, .go, .call 1 105, .acquire 1, .go, .go]

theorem uart_transmits_two : ∃ s, uartLts.Run twoChars s ∧ s.put = [104, 105] ∧ s.sent = [104] ∧ s.tx.len = 1 ∧
    (s.idle = false ∨ s.pending = true ∨ s.pc 0 = .intr) := by
  obtain ⟨s, hExec, hPut, hSent, hLen, hFree⟩ : ∃ s, uartLts.exec initial twoChars = some s ∧ s.put = [104, 105] ∧
      s.sent = [104] ∧ s.tx.len = 1 ∧ s.hold = none := ⟨_, rfl, rfl, rfl, rfl, rfl⟩
  have hRun := Lts.run_of_exec (Lts.Run.start (M := uartLts) rfl) hExec
  exact ⟨s, hRun, hPut, hSent, hLen, (uart_transmits hRun).2.2.2 hFree (by simp [hLen])⟩

end Xv6.Uart
