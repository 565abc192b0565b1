import Mathlib.Data.List.Nodup
import Mathlib.Logic.Function.Iterate
import Mathlib.Tactic.Common

/-!
# Writes after an atomic step

Threads share a state. A thread that wants to takes one atomic step on it, which gives it a ticket,
and writes under its ticket later on; between the two, any number of other threads take their steps
and write.

Where a write does not change which tickets come next and does not touch what is written under other
tickets (`Tickets.Apart`), and no ticket comes twice, a run of the threads in any order ends in the
state in which each of them takes its step and writes at once, one thread after the other, in the
order of the atomic steps (`foldl_step`).

The proof is one induction over the run. Its invariant (`Ordered`) keeps the order in which the
threads took their steps: were the tickets that are held written under, the state would be the one
of these threads taking their step and writing at once. The order is a different one for each run,
so what holds of every order holds of every run.
-/

set_option autoImplicit false
set_option relaxedAutoImplicit false

namespace Bc3Miner.Foundations

variable {Thread State Ticket : Type*}

/-- What the threads do to the state. -/
structure Tickets (Thread State Ticket : Type*) where
  ticket : State → Ticket
  take : State → State
  write : Ticket → Thread → State → State

/-- Writes stay out of the way of all other steps. -/
structure Tickets.Apart (tickets : Tickets Thread State Ticket) : Prop where
  ticket_write (mine : Ticket) (thread : Thread) (state : State) :
    tickets.ticket (tickets.write mine thread state) = tickets.ticket state
  take_write (mine : Ticket) (thread : Thread) (state : State) :
    tickets.take (tickets.write mine thread state) = tickets.write mine thread (tickets.take state)
  write_write {mine other : Ticket} (hne : mine ≠ other) (thread thread' : Thread) (state : State) :
    tickets.write mine thread (tickets.write other thread' state) =
      tickets.write other thread' (tickets.write mine thread state)

/-- How far a thread has come. -/
inductive Phase (Ticket : Type*) where
  | ready
  | holds (ticket : Ticket)
  | done

/-- How many steps are left of it. -/
def Phase.left : Phase Ticket → ℕ
  | .ready => 2
  | .holds _ => 1
  | .done => 0

/-- The shared state and the threads. -/
structure Threads (Thread State Ticket : Type*) where
  state : State
  phase : Thread → Phase Ticket

namespace Tickets

variable (tickets : Tickets Thread State Ticket)

/-- Both steps of a thread in one. -/
def atOnce (state : State) (thread : Thread) : State :=
  tickets.write (tickets.ticket state) thread (tickets.take state)

/-- The ticket of the thread that `n` others have come before. -/
def issued (state : State) (n : ℕ) : Ticket := tickets.ticket (tickets.take^[n] state)

/-- The tickets that are held, written under. -/
def settle (state : State) (held : List (Ticket × Thread)) : State :=
  held.foldl (fun state hold ↦ tickets.write hold.1 hold.2 state) state

section Step

variable [DecidableEq Thread] (wants : Thread → Bool)

/-- The next step of a thread. One that wants nothing is done at once. -/
def step (threads : Threads Thread State Ticket) (thread : Thread) :
    Threads Thread State Ticket :=
  match threads.phase thread with
  | .ready =>
    if wants thread then
      ⟨tickets.take threads.state,
        Function.update threads.phase thread (.holds (tickets.ticket threads.state))⟩
    else ⟨threads.state, Function.update threads.phase thread .done⟩
  | .holds ticket =>
    ⟨tickets.write ticket thread threads.state, Function.update threads.phase thread .done⟩
  | .done => threads

end Step

/-! ### Writes and other steps -/

section Apart

variable {tickets} (hapart : tickets.Apart)

include hapart

/-- Carrying out the delayed writes first and then taking a ticket gives the same state as the other
order. -/
theorem Apart.take_settle (state : State) (held : List (Ticket × Thread)) :
    tickets.take (tickets.settle state held) = tickets.settle (tickets.take state) held := by
  induction held generalizing state with
  | nil => rfl
  | cons hold rest ih =>
    show tickets.take (tickets.settle (tickets.write hold.1 hold.2 state) rest) = _
    rw [ih, hapart.take_write]
    rfl

/-- The ticket that is next does not depend on the writes that are still delayed. -/
theorem Apart.ticket_settle (state : State) (held : List (Ticket × Thread)) :
    tickets.ticket (tickets.settle state held) = tickets.ticket state := by
  induction held generalizing state with
  | nil => rfl
  | cons hold rest ih =>
    show tickets.ticket (tickets.settle (tickets.write hold.1 hold.2 state) rest) = _
    rw [ih, hapart.ticket_write]

/-- A write comes before those under other tickets as well as after them. -/
theorem Apart.settle_write {mine : Ticket} {held : List (Ticket × Thread)}
    (hother : ∀ hold ∈ held, hold.1 ≠ mine) (thread : Thread) (state : State) :
    tickets.settle (tickets.write mine thread state) held =
      tickets.write mine thread (tickets.settle state held) := by
  induction held generalizing state with
  | nil => rfl
  | cons hold rest ih =>
    show tickets.settle (tickets.write hold.1 hold.2 (tickets.write mine thread state)) rest = _
    rw [hapart.write_write (hother hold List.mem_cons_self),
      ih fun later hmem ↦ hother later (List.mem_cons_of_mem hold hmem)]
    rfl

/-- A delayed write changes nothing of which tickets have been issued. -/
theorem Apart.issued_write (mine : Ticket) (thread : Thread) (state : State) (n : ℕ) :
    tickets.issued (tickets.write mine thread state) n = tickets.issued state n := by
  have hcommute : Function.Commute tickets.take (tickets.write mine thread) :=
    hapart.take_write mine thread
  have hiterate : tickets.take^[n] (tickets.write mine thread state) =
      tickets.write mine thread (tickets.take^[n] state) := hcommute.iterate_left n state
  rw [issued, hiterate, hapart.ticket_write, issued]

end Apart

/-! ### What holds on the way -/

/-- The threads that have taken their step, in the order of these, and the tickets that are held: a
state in which the held tickets are written under is one of threads that did both at once. -/
structure Ordered (wants : Thread → Bool) (before : State) (order : List Thread)
    (held : List (Ticket × Thread)) (threads : Threads Thread State Ticket) : Prop where
  settled : tickets.settle threads.state held = order.foldl tickets.atOnce before
  next (n : ℕ) : tickets.issued threads.state n = tickets.issued before (order.length + n)
  issued : ∀ hold ∈ held, ∃ i < order.length, hold.1 = tickets.issued before i
  distinct : (held.map Prod.fst).Nodup
  holds (thread : Thread) (ticket : Ticket) :
    threads.phase thread = .holds ticket ↔ (ticket, thread) ∈ held
  nodup : order.Nodup
  mem (thread : Thread) : thread ∈ order ↔ wants thread = true ∧ threads.phase thread ≠ .ready

/-- Before any thread has moved the order of tickets is empty and no write is delayed. -/
theorem ordered_start (wants : Thread → Bool) (before : State) :
    tickets.Ordered wants before [] [] ⟨before, fun _ ↦ .ready⟩ where
  settled := rfl
  next n := by rw [List.length_nil, Nat.zero_add]
  issued hold hmem := absurd hmem List.not_mem_nil
  distinct := List.nodup_nil
  holds thread ticket := ⟨fun hready ↦ (nomatch hready), fun hmem ↦ absurd hmem List.not_mem_nil⟩
  nodup := List.nodup_nil
  mem thread := ⟨fun hmem ↦ absurd hmem List.not_mem_nil, fun hleft ↦ absurd rfl hleft.2⟩

section Run

variable {tickets} [DecidableEq Thread] {wants : Thread → Bool} {before : State}
  {order : List Thread} {held : List (Ticket × Thread)} {threads : Threads Thread State Ticket}

/-- An atomic step of a thread that is ready and wants a ticket: the order of tickets is one longer,
the thread holds the new one with its write still delayed, and the ticket is one that was not issued
before. -/
theorem Ordered.taken (hapart : tickets.Apart)
    (hordered : tickets.Ordered wants before order held threads) {thread : Thread}
    (hready : threads.phase thread = .ready) (hwants : wants thread = true)
    (hfresh : ∀ i < order.length, tickets.issued before i ≠ tickets.issued before order.length) :
    tickets.Ordered wants before (order ++ [thread])
      (held ++ [(tickets.ticket threads.state, thread)])
      ⟨tickets.take threads.state,
        Function.update threads.phase thread (.holds (tickets.ticket threads.state))⟩ := by
  have hticket : tickets.ticket threads.state = tickets.issued before order.length :=
    hordered.next 0
  have hunheld (ticket : Ticket) : (ticket, thread) ∉ held := by
    intro hmem
    rw [← hordered.holds, hready] at hmem
    exact nomatch hmem
  constructor
  case settled =>
    rw [settle, List.foldl_append, List.foldl_append, ← hordered.settled]
    show tickets.write _ thread (tickets.settle (tickets.take threads.state) held) = _
    rw [← hapart.take_settle, ← hapart.ticket_settle threads.state held]
    rfl
  case next =>
    intro n
    have hnext := hordered.next (n + 1)
    rw [List.length_append, List.length_singleton, Nat.add_assoc, Nat.add_comm 1, ← hnext]
    rfl
  case issued =>
    intro hold hmem
    rw [List.length_append, List.length_singleton]
    rcases List.mem_append.mp hmem with hbefore | hnew
    · obtain ⟨i, hi, heq⟩ := hordered.issued hold hbefore
      exact ⟨i, Nat.lt_succ_of_lt hi, heq⟩
    · rw [List.mem_singleton.mp hnew]
      exact ⟨order.length, Nat.lt_succ_self _, hticket⟩
  case distinct =>
    rw [List.map_append, List.nodup_append]
    refine ⟨hordered.distinct, List.nodup_singleton _, ?_⟩
    intro ticket hmem other hnew
    obtain ⟨hold, hhold, rfl⟩ := List.mem_map.mp hmem
    obtain ⟨i, hi, heq⟩ := hordered.issued hold hhold
    rw [List.mem_singleton.mp hnew, heq, hticket]
    exact hfresh i hi
  case holds =>
    intro other ticket
    by_cases hsame : other = thread
    · subst hsame
      simp only [Function.update_self, Phase.holds.injEq, List.mem_append, hunheld ticket,
        List.mem_singleton, Prod.mk.injEq, and_true, false_or]
      exact eq_comm
    · simp only [Function.update_of_ne hsame, hordered.holds, List.mem_append, List.mem_singleton,
        Prod.mk.injEq, hsame, and_false, or_false]
  case nodup =>
    rw [List.nodup_append]
    refine ⟨hordered.nodup, List.nodup_singleton _, ?_⟩
    rintro earlier hmem last hlast rfl
    rw [List.mem_singleton.mp hlast, hordered.mem] at hmem
    exact hmem.2 hready
  case mem =>
    intro other
    rw [List.mem_append, List.mem_singleton, hordered.mem]
    by_cases hsame : other = thread
    · subst hsame
      simp [hwants]
    · simp [hsame]

/-- The write of a thread that holds a ticket: one delayed write less, and the same order of the
tickets, since the writes that are still delayed concern other tickets. -/
theorem Ordered.written (hapart : tickets.Apart)
    (hordered : tickets.Ordered wants before order held threads) {thread : Thread} {ticket : Ticket}
    (hholds : threads.phase thread = .holds ticket) :
    ∃ held', tickets.Ordered wants before order held'
      ⟨tickets.write ticket thread threads.state,
        Function.update threads.phase thread .done⟩ := by
  obtain ⟨first, rest, hsplit⟩ := List.append_of_mem ((hordered.holds thread ticket).mp hholds)
  have hdistinct := hordered.distinct
  rw [hsplit, List.map_append, List.map_cons, List.nodup_middle, List.nodup_cons] at hdistinct
  obtain ⟨hunheld, hdistinct⟩ := hdistinct
  rw [← List.map_append] at hunheld hdistinct
  have hmem (hold : Ticket × Thread) :
      hold ∈ held ↔ hold = (ticket, thread) ∨ hold ∈ first ++ rest := by
    rw [hsplit, List.mem_append, List.mem_cons, List.mem_append]
    exact or_left_comm
  refine ⟨first ++ rest, ?_⟩
  constructor
  case settled =>
    have hother : ∀ hold ∈ first, hold.1 ≠ ticket := by
      rintro hold hhold rfl
      exact hunheld (List.mem_map.mpr ⟨hold, List.mem_append_left rest hhold, rfl⟩)
    rw [← hordered.settled, hsplit, settle, settle, List.foldl_append, List.foldl_append,
      List.foldl_cons]
    exact congrArg (tickets.settle · rest) (hapart.settle_write hother thread threads.state)
  case next => exact fun n ↦ (hapart.issued_write ticket thread _ n).trans (hordered.next n)
  case issued => exact fun hold hhold ↦ hordered.issued hold ((hmem hold).mpr (Or.inr hhold))
  case distinct => exact hdistinct
  case holds =>
    intro other mine
    by_cases hsame : other = thread
    · subst hsame
      simp only [Function.update_self, reduceCtorEq, false_iff]
      intro hhold
      have hheld := (hordered.holds other mine).mpr ((hmem _).mpr (Or.inr hhold))
      rw [hholds, Phase.holds.injEq] at hheld
      rw [hheld] at hunheld
      exact hunheld (List.mem_map_of_mem hhold)
    · simp only [Function.update_of_ne hsame, hordered.holds, hmem, Prod.mk.injEq, hsame, and_false,
        false_or]
  case nodup => exact hordered.nodup
  case mem =>
    intro other
    rw [hordered.mem]
    by_cases hsame : other = thread
    · subst hsame
      simp [hholds]
    · simp [hsame]

/-- A thread that wants nothing leaves. -/
theorem Ordered.left (hordered : tickets.Ordered wants before order held threads) {thread : Thread}
    (hready : threads.phase thread = .ready) (hwants : wants thread ≠ true) :
    tickets.Ordered wants before order held
      ⟨threads.state, Function.update threads.phase thread .done⟩ where
  settled := hordered.settled
  next := hordered.next
  issued := hordered.issued
  distinct := hordered.distinct
  holds other ticket := by
    rw [← hordered.holds]
    by_cases hsame : other = thread
    · subst hsame
      simp [hready]
    · simp [hsame]
  nodup := hordered.nodup
  mem other := by
    rw [hordered.mem]
    by_cases hsame : other = thread
    · subst hsame
      simp [hwants]
    · simp [hsame]

/-! ### Runs -/

variable (hapart : tickets.Apart) {bound : ℕ}
  (hbound : ∀ order : List Thread, order.Nodup → (∀ thread ∈ order, wants thread = true) →
    order.length ≤ bound)
  (hdistinct : ∀ j < bound, ∀ i < j, tickets.issued before i ≠ tickets.issued before j)

include hapart hbound hdistinct

/-- Whichever thread moves, the state stays that of some order of the tickets with some writes
delayed. -/
theorem Ordered.step (hordered : tickets.Ordered wants before order held threads)
    (thread : Thread) :
    ∃ order' held', tickets.Ordered wants before order' held'
      (tickets.step wants threads thread) := by
  unfold Tickets.step
  rcases hphase : threads.phase thread with _ | ticket | _
  · by_cases hwants : wants thread = true
    · have hroom : (order ++ [thread]).length ≤ bound := by
        refine hbound _ ?_ fun other hmem ↦ ?_
        · rw [List.nodup_append]
          refine ⟨hordered.nodup, List.nodup_singleton _, ?_⟩
          rintro earlier hmem last hlast rfl
          rw [List.mem_singleton.mp hlast, hordered.mem] at hmem
          exact hmem.2 hphase
        · rcases List.mem_append.mp hmem with hbefore | hlast
          · exact ((hordered.mem other).mp hbefore).1
          · rw [List.mem_singleton.mp hlast]
            exact hwants
      rw [List.length_append, List.length_singleton] at hroom
      simp only [hwants, if_true]
      exact ⟨_, _, hordered.taken hapart hphase hwants (hdistinct order.length hroom)⟩
    · simp only [hwants]
      exact ⟨_, _, hordered.left hphase hwants⟩
  · exact ⟨order, hordered.written hapart hphase⟩
  · exact ⟨order, held, hordered⟩

/-- After any interleaving the state is that of some order of the tickets with some writes delayed.
-/
theorem Ordered.foldl_step (hordered : tickets.Ordered wants before order held threads)
    (run : List Thread) :
    ∃ order' held', tickets.Ordered wants before order' held'
      (run.foldl (tickets.step wants) threads) := by
  induction run generalizing order held threads with
  | nil => exact ⟨order, held, hordered⟩
  | cons thread rest ih =>
    obtain ⟨order', held', hnext⟩ := hordered.step hapart hbound hdistinct thread
    exact ih hnext

omit hapart hbound hdistinct in
variable (tickets wants) in
/-- A thread gets on with every step of its own. -/
theorem left_foldl_step (run : List Thread) (threads : Threads Thread State Ticket)
    (thread : Thread) :
    ((run.foldl (tickets.step wants) threads).phase thread).left ≤
      (threads.phase thread).left - run.count thread := by
  induction run generalizing threads with
  | nil => exact Nat.le_refl _
  | cons next rest ih =>
    have hrest := ih (tickets.step wants threads next)
    rw [List.foldl_cons]
    by_cases hsame : next = thread
    · subst hsame
      have hstep : ((tickets.step wants threads next).phase next).left ≤
          (threads.phase next).left - 1 := by
        unfold Tickets.step
        rcases hphase : threads.phase next with _ | ticket | _
        · by_cases hwants : wants next = true
          · simp [hwants, Phase.left]
          · simp [hwants, Phase.left]
        · simp [Phase.left]
        · simp [hphase, Phase.left]
      rw [List.count_cons_self]
      omega
    · have hstep : (tickets.step wants threads next).phase thread = threads.phase thread := by
        have hne : thread ≠ next := fun heq ↦ hsame heq.symm
        unfold Tickets.step
        rcases threads.phase next with _ | ticket | _
        · by_cases hwants : wants next = true
          · simp [hwants, hne]
          · simp [hwants, hne]
        · simp [hne]
        · rfl
      rw [List.count_cons_of_ne hsame, ← hstep]
      exact hrest

/-- Every thread comes to its end, and all of them leave the state as if those that want to had done
both steps at once, in some order. -/
theorem foldl_step {run : List Thread} (hrun : ∀ thread, 2 ≤ run.count thread) :
    ∃ order : List Thread, order.Nodup ∧ (∀ thread, thread ∈ order ↔ wants thread = true) ∧
      (run.foldl (tickets.step wants) ⟨before, fun _ ↦ .ready⟩).state =
        order.foldl tickets.atOnce before := by
  obtain ⟨order, held, hordered⟩ :=
    (tickets.ordered_start wants before).foldl_step hapart hbound hdistinct run
  have hdone (thread : Thread) :
      ((run.foldl (tickets.step wants) ⟨before, fun _ ↦ .ready⟩).phase thread) = .done := by
    have hleft := left_foldl_step tickets wants run
      ⟨before, fun _ ↦ .ready⟩ thread
    have hcount := hrun thread
    have hready : (Phase.ready : Phase Ticket).left = 2 := rfl
    simp only [hready] at hleft
    rcases hphase : (run.foldl (tickets.step wants) ⟨before, fun _ ↦ .ready⟩).phase thread with
      _ | ticket | _
    · rw [hphase, hready] at hleft
      omega
    · rw [hphase] at hleft
      have hheld : (Phase.holds ticket).left = 1 := rfl
      omega
    · rfl
  have hnone : held = [] := by
    rw [List.eq_nil_iff_forall_not_mem]
    rintro ⟨ticket, thread⟩ hmem
    rw [← hordered.holds, hdone] at hmem
    exact nomatch hmem
  refine ⟨order, hordered.nodup, fun thread ↦ ?_, ?_⟩
  · rw [hordered.mem, hdone]
    simp
  · rw [← hordered.settled, hnone]
    rfl

end Run

end Tickets

end Bc3Miner.Foundations
