import Bc3Miner.Foundations.TotalMachine
import Mathlib.Algebra.GroupWithZero.Nat
import Mathlib.Data.List.Induction
import Mathlib.Data.List.Nodup

/-!
# The log of rejected shares

`RejectLog` of `src/stratum.rs`: why shares are rejected is said once for each reason, and then how
many more there were, every 10 seconds while it goes on. A reason that has been said has a window,
with the rejects held back since.

For one reason the log is a single window or none (`window_reject`, `window_due`): a reject opens it
or is held back in it, and `due` leaves it, says its count and begins it again, or forgets it. The
accounts of a reason (`Told.Accounts`) hold after every sequence of calls: what was said and what is
held is what was rejected, and a window began with the last line about its reason.

An `Instant` is a number of nanoseconds; the duration since a later one is zero, as in the source.

`no_reject_lost_or_invented` is over any calls with any readings of the clock. The texts of the
lines are those of the source, and a line is told from another by its reason and its count.
-/

set_option autoImplicit false
set_option relaxedAutoImplicit false

namespace Bc3Miner.Pool

open Foundations

/-! ### Entries by key -/

section Keys

variable {α β κ : Type*} [DecidableEq κ] {key : α → κ} {key' : β → κ} {f : α → Option β}

/-- A pass that keeps the keys does not bring a key in. -/
theorem filter_filterMap_of_notMem (hf : ∀ entry made, f entry = some made → key' made = key entry)
    {entries : List α} {wanted : κ} (hnone : wanted ∉ entries.map key) :
    (entries.filterMap f).filter (fun made ↦ decide (key' made = wanted)) = [] := by
  rw [List.filter_eq_nil_iff]
  intro made hmem hkey
  obtain ⟨entry, hentry, hmade⟩ := List.mem_filterMap.mp hmem
  have hsame : key entry = wanted := (hf entry made hmade).symm.trans (of_decide_eq_true hkey)
  exact hnone (hsame ▸ List.mem_map_of_mem hentry)

/-- Where no key is there twice, a pass that keeps the keys makes of a key's entry what it makes of
any entry, and nothing else with that key. -/
theorem filter_filterMap (hf : ∀ entry made, f entry = some made → key' made = key entry)
    {entries : List α} (hnodup : (entries.map key).Nodup) (wanted : κ) :
    (entries.filterMap f).filter (fun made ↦ decide (key' made = wanted)) =
      ((entries.find? fun entry ↦ decide (key entry = wanted)).bind f).toList := by
  induction entries with
  | nil => rfl
  | cons entry rest ih =>
    rw [List.map_cons, List.nodup_cons] at hnodup
    obtain ⟨hfirst, hrest⟩ := hnodup
    by_cases hwanted : key entry = wanted
    · have hnone := filter_filterMap_of_notMem hf (hwanted ▸ hfirst)
      have hfound : (entry :: rest).find? (fun entry ↦ decide (key entry = wanted)) = some entry :=
        List.find?_cons_of_pos (by simpa using hwanted)
      rw [hfound, Option.bind_some]
      rcases hmade : f entry with _ | made
      · rw [List.filterMap_cons_none hmade, hnone]
        rfl
      · have hkey : key' made = wanted := (hf entry made hmade).trans hwanted
        rw [List.filterMap_cons_some hmade, List.filter_cons_of_pos (by simpa using hkey), hnone]
        rfl
    · have hlater : (entry :: rest).find? (fun entry ↦ decide (key entry = wanted)) =
          rest.find? fun entry ↦ decide (key entry = wanted) :=
        List.find?_cons_of_neg (by simpa using hwanted)
      rw [hlater, ← ih hrest]
      rcases hmade : f entry with _ | made
      · rw [List.filterMap_cons_none hmade]
      · have hkey : key' made ≠ wanted := fun heq ↦ hwanted ((hf entry made hmade).symm.trans heq)
        rw [List.filterMap_cons_some hmade, List.filter_cons_of_neg (by simpa using hkey)]

end Keys

/-! ### The log -/

/-- `REJECT_SUMMARY_EVERY`. -/
def rejectSummaryEvery : ℕ := 10 * 10 ^ 9

/-- A reason's window: when it started, and the rejects held back in it. -/
structure Window where
  reason : String
  since : ℕ
  held : ℕ
  deriving DecidableEq, Repr

/-- What is printed: a reason, or how many more there were in so many seconds. -/
inductive RejectLine
  | first (reason : String)
  | more (reason : String) (held seconds : ℕ)
  deriving DecidableEq, Repr

namespace RejectLine

def text : RejectLine → String
  | .first reason => "[pool] share rejected: " ++ reason
  | .more reason held seconds => "[pool] share rejected: " ++ reason ++ " - " ++ toString held ++
      " more in the last " ++ toString seconds ++ " s"

/-- The reason a line is about. -/
def reason : RejectLine → String
  | .first reason => reason
  | .more reason _ _ => reason

/-- The rejects a line is the first word of: one, or those it counts. -/
def firsts : RejectLine → ℕ
  | .first _ => 1
  | .more _ _ _ => 0

def counted : RejectLine → ℕ
  | .first _ => 0
  | .more _ held _ => held

end RejectLine

/-- Per reason, a window. -/
structure RejectLog where
  openWindows : List Window
  deriving DecidableEq, Repr

namespace RejectLog

/-- One more held back in the first window of the reason, if there is one. -/
def holdBack (reason : String) : List Window → Option (List Window)
  | [] => none
  | window :: rest =>
    if window.reason = reason then some ({ window with held := window.held + 1 } :: rest)
    else (holdBack reason rest).map (window :: ·)

/-- A share was rejected: the line to print now, if any. -/
def reject (log : RejectLog) (reason : String) (now : ℕ) : Option RejectLine × RejectLog :=
  match holdBack reason log.openWindows with
  | some windows => (none, ⟨windows⟩)
  | none => (some (.first reason), ⟨log.openWindows ++ [⟨reason, now, 0⟩]⟩)

/-- What `due` keeps of a window, and the line it prints for it. -/
def dueWindow (now : ℕ) (window : Window) : Option Window × Option RejectLine :=
  let elapsed := now - window.since
  if elapsed < rejectSummaryEvery then (some window, none)
  else if window.held = 0 then (none, none)
  else (some { window with since := now, held := 0 },
    some (.more window.reason window.held (elapsed / 10 ^ 9)))

/-- The counts of the windows that are over. -/
def due (log : RejectLog) (now : ℕ) : List RejectLine × RejectLog :=
  (log.openWindows.filterMap fun window ↦ (dueWindow now window).2,
    ⟨log.openWindows.filterMap fun window ↦ (dueWindow now window).1⟩)

/-- The window of a reason. -/
def window (log : RejectLog) (reason : String) : Option Window :=
  log.openWindows.find? fun window ↦ decide (window.reason = reason)

/-- No reason has two windows. -/
def OnePerReason (log : RejectLog) : Prop := (log.openWindows.map Window.reason).Nodup

/-! ### One reason -/

variable {log : RejectLog} {reason other : String}

/-- What is kept of a window, and the line it gives, are about its reason. -/
theorem dueWindow_reason (now : ℕ) (window : Window) :
    (∀ kept, (dueWindow now window).1 = some kept → kept.reason = window.reason) ∧
      ∀ line, (dueWindow now window).2 = some line → line.reason = window.reason := by
  unfold dueWindow
  dsimp only
  split_ifs
  · exact ⟨fun kept hkept ↦ Option.some.inj hkept ▸ rfl, fun line hline ↦ absurd hline (by simp)⟩
  · exact ⟨fun kept hkept ↦ absurd hkept (by simp), fun line hline ↦ absurd hline (by simp)⟩
  · exact ⟨fun kept hkept ↦ Option.some.inj hkept ▸ rfl,
      fun line hline ↦ Option.some.inj hline ▸ rfl⟩

/-- `due` for one reason: what it says of the reason's window. -/
theorem lines_due (hone : log.OnePerReason) (now : ℕ) (reason : String) :
    (log.due now).1.filter (fun line ↦ decide (line.reason = reason)) =
      ((log.window reason).bind fun window ↦ (dueWindow now window).2).toList :=
  filter_filterMap (fun window _ ↦ (dueWindow_reason now window).2 _) hone reason

/-- `due` for one reason: what it leaves of the reason's window. -/
theorem window_due (hone : log.OnePerReason) (now : ℕ) (reason : String) :
    (log.due now).2.window reason =
      (log.window reason).bind fun window ↦ (dueWindow now window).1 := by
  have hkept := filter_filterMap (f := fun window ↦ (dueWindow now window).1)
    (fun window _ ↦ (dueWindow_reason now window).1 _) hone reason
  rw [RejectLog.window, ← List.head?_filter]
  unfold due
  dsimp only
  rw [hkept, Option.head?_toList]
  rfl

/-- Closing the windows that are due leaves at most one for each reason. -/
theorem onePerReason_due (hone : log.OnePerReason) (now : ℕ) : (log.due now).2.OnePerReason := by
  have hsublist : ∀ windows : List Window,
      ((windows.filterMap fun window ↦ (dueWindow now window).1).map Window.reason).Sublist
        (windows.map Window.reason) := by
    intro windows
    induction windows with
    | nil => exact List.Sublist.slnil
    | cons window rest ih =>
      rw [List.filterMap_cons]
      rcases hkept : (dueWindow now window).1 with _ | kept
      · exact ih.cons _
      · rw [List.map_cons, List.map_cons, (dueWindow_reason now window).1 kept hkept]
        exact ih.cons_cons _
  exact hone.sublist (hsublist _)

/-- Holding a reject back fails exactly if its reason has no window. Else the windows keep their
reasons and their order, the one of the reason holds one reject more, and those of other reasons are
as before. -/
theorem holdBack_spec (reason : String) (windows : List Window) :
    match holdBack reason windows with
    | none => windows.find? (fun window ↦ decide (window.reason = reason)) = none
    | some next => next.map Window.reason = windows.map Window.reason ∧
        windows.find? (fun window ↦ decide (window.reason = reason)) ≠ none ∧
        ∀ other, next.find? (fun window ↦ decide (window.reason = other)) =
          (windows.find? fun window ↦ decide (window.reason = other)).map fun window ↦
            if other = reason then { window with held := window.held + 1 } else window := by
  induction windows with
  | nil => rfl
  | cons window rest ih =>
    rw [holdBack]
    by_cases hreason : window.reason = reason
    · rw [if_pos hreason]
      have hfound : (window :: rest).find? (fun window ↦ decide (window.reason = reason)) =
          some window := List.find?_cons_of_pos (by simpa using hreason)
      refine ⟨rfl, by rw [hfound]; exact Option.some_ne_none _, fun other ↦ ?_⟩
      by_cases hother : window.reason = other
      · have hsame : other = reason := hother.symm.trans hreason
        rw [List.find?_cons_of_pos (by simpa using hother),
          List.find?_cons_of_pos (by simpa using hother), Option.map_some, if_pos hsame]
      · have hne : other ≠ reason := fun heq ↦ hother (hreason.trans heq.symm)
        rw [List.find?_cons_of_neg (by simpa using hother),
          List.find?_cons_of_neg (by simpa using hother)]
        simp only [if_neg hne, Option.map_id']
    · rw [if_neg hreason]
      rcases hnext : holdBack reason rest with _ | next
      · rw [hnext] at ih
        rw [Option.map_none]
        exact (List.find?_cons_of_neg (by simpa using hreason)).trans ih
      · rw [hnext] at ih
        rw [Option.map_some]
        have hlater : (window :: rest).find? (fun window ↦ decide (window.reason = reason)) =
            rest.find? fun window ↦ decide (window.reason = reason) :=
          List.find?_cons_of_neg (by simpa using hreason)
        refine ⟨by rw [List.map_cons, List.map_cons, ih.1], by rw [hlater]; exact ih.2.1,
          fun other ↦ ?_⟩
        by_cases hother : window.reason = other
        · have hne : other ≠ reason := fun heq ↦ hreason (hother.trans heq)
          rw [List.find?_cons_of_pos (by simpa using hother),
            List.find?_cons_of_pos (by simpa using hother), Option.map_some, if_neg hne]
        · rw [List.find?_cons_of_neg (by simpa using hother),
            List.find?_cons_of_neg (by simpa using hother)]
          exact ih.2.2 other

/-- The window of a reason after a reject of it. -/
def rejected (reason : String) (now : ℕ) : Option Window → Window
  | none => ⟨reason, now, 0⟩
  | some window => { window with held := window.held + 1 }

/-- A reject, on a log with at most one window for each reason. If its reason has no window it is
said at once and opens one at the present time; else nothing is said and the window holds one more.
The windows of other reasons are as before. -/
theorem reject_spec (hone : log.OnePerReason) (reason : String) (now : ℕ) :
    (log.reject reason now).1 = (if log.window reason = none then some (.first reason) else none) ∧
      (log.reject reason now).2.OnePerReason ∧
      ∀ other, (log.reject reason now).2.window other =
        if other = reason then some (rejected reason now (log.window reason))
        else log.window other := by
  have hspec := holdBack_spec reason log.openWindows
  unfold reject
  rcases hnext : holdBack reason log.openWindows with _ | next
  · rw [hnext] at hspec
    have hnone : log.window reason = none := hspec
    have hnew : reason ∉ log.openWindows.map Window.reason := by
      intro hmem
      obtain ⟨window, hwindow, hreason⟩ := List.mem_map.mp hmem
      have hno := List.find?_eq_none.mp hspec window hwindow
      exact hno (by simpa using hreason)
    refine ⟨by rw [hnone]; rfl, ?_, fun other ↦ ?_⟩
    · unfold OnePerReason
      rw [List.map_append]
      exact hone.append (List.nodup_singleton reason)
        (List.disjoint_singleton.mpr hnew)
    · rw [window, List.find?_append]
      by_cases hother : other = reason
      · have hfound : [(⟨reason, now, 0⟩ : Window)].find?
            (fun window ↦ decide (window.reason = reason)) = some ⟨reason, now, 0⟩ :=
          List.find?_cons_of_pos (decide_eq_true rfl)
        rw [hother, if_pos rfl, hspec, hnone, hfound]
        rfl
      · have hlast : [(⟨reason, now, 0⟩ : Window)].find?
            (fun window ↦ decide (window.reason = other)) = none := by
          rw [List.find?_cons_of_neg (by rw [decide_eq_true_eq]; exact Ne.symm hother),
            List.find?_nil]
        rw [if_neg hother, hlast, Option.or_none]
        rfl
  · rw [hnext] at hspec
    obtain ⟨hreasons, hsome, hwindows⟩ := hspec
    have hopen : log.window reason ≠ none := hsome
    refine ⟨(if_neg hopen).symm, ?_, fun other ↦ ?_⟩
    · unfold OnePerReason
      rwa [hreasons]
    · refine (hwindows other).trans ?_
      change (log.window other).map _ = _
      by_cases hother : other = reason
      · obtain ⟨window, hwindow⟩ := Option.ne_none_iff_exists'.mp hopen
        rw [if_pos hother, hother, hwindow, Option.map_some, if_pos rfl]
        rfl
      · simp only [if_neg hother, Option.map_id']

end RejectLog

/-! ### Every sequence of calls -/

/-- A call, with the time it is made at. -/
inductive RejectCall
  | reject (reason : String) (now : ℕ)
  | due (now : ℕ)
  deriving DecidableEq, Repr

namespace RejectCall

def now : RejectCall → ℕ
  | .reject _ now => now
  | .due now => now

/-- Whether the call is a reject of that reason. -/
def rejects (reason : String) : RejectCall → Bool
  | .reject other _ => decide (other = reason)
  | .due _ => false

end RejectCall

/-- The log, and all that was printed. -/
structure Told where
  log : RejectLog
  lines : List RejectLine
  deriving DecidableEq, Repr

namespace Told

def call (log : RejectLog) : RejectCall → List RejectLine × RejectLog
  | .reject reason now => ((log.reject reason now).1.toList, (log.reject reason now).2)
  | .due now => log.due now

def step (told : Told) (made : RejectCall) : Told :=
  ⟨(call told.log made).2, told.lines ++ (call told.log made).1⟩

/-- What a sequence of calls comes to. -/
def after (calls : List RejectCall) : Told := TotalMachine.run step ⟨⟨[]⟩, []⟩ calls

theorem after_concat (calls : List RejectCall) (made : RejectCall) :
    after (calls ++ [made]) = step (after calls) made := TotalMachine.run_concat _ _ _ _

/-- The lines about a reason. -/
def about (told : Told) (reason : String) : List RejectLine :=
  told.lines.filter fun line ↦ decide (line.reason = reason)

/-- The rejects held back in the reason's windows. -/
def held (told : Told) (reason : String) : ℕ :=
  ((told.log.openWindows.filter fun window ↦ decide (window.reason = reason)).map Window.held).sum

/-- The accounts of a reason: what was said of it and what is held is what was rejected, and its
window began with the last line about it, all that it holds coming after. -/
structure Accounts (calls : List RejectCall) (reason : String) : Prop where
  one : (after calls).log.OnePerReason
  balance : calls.countP (·.rejects reason) =
    (((after calls).about reason).map RejectLine.firsts).sum +
      (((after calls).about reason).map RejectLine.counted).sum +
      ((after calls).log.window reason).elim 0 Window.held
  began : ∀ window, (after calls).log.window reason = some window →
    ∃ before start rest, calls = before ++ start :: rest ∧ start.now = window.since ∧
      (∃ line ∈ (call (after before).log start).1, line.reason = reason) ∧
      (after calls).about reason = (after (before ++ [start])).about reason ∧
      rest.countP (·.rejects reason) = window.held

theorem accounts_nil (reason : String) : Accounts [] reason :=
  ⟨List.nodup_nil, rfl, fun window hwindow ↦ absurd hwindow (by simp [after, RejectLog.window])⟩

variable {calls : List RejectCall} {reason : String}

/-- The lines about a reason that one more call adds. -/
theorem about_concat (calls : List RejectCall) (made : RejectCall) (reason : String) :
    (after (calls ++ [made])).about reason = (after calls).about reason ++
      (call (after calls).log made).1.filter fun line ↦ decide (line.reason = reason) := by
  rw [after_concat]
  exact List.filter_append ..

/-- A call keeps the accounts of a reason if it says nothing of it, leaves its window where it was,
and holds back in it exactly as many rejects as it brings: what was said, counted and held then adds
up as before. -/
theorem Accounts.quiet (haccounts : Accounts calls reason) {made : RejectCall}
    (hone : (call (after calls).log made).2.OnePerReason)
    (hlines :
      ((call (after calls).log made).1.filter fun line ↦ decide (line.reason = reason)) = [])
    (hwindow : (call (after calls).log made).2.window reason =
      ((after calls).log.window reason).map fun window ↦
        { window with held := window.held + if made.rejects reason then 1 else 0 })
    (hopen : made.rejects reason = true → (after calls).log.window reason ≠ none) :
    Accounts (calls ++ [made]) reason := by
  obtain ⟨-, hbalance, hbegan⟩ := haccounts
  have hlog : (after (calls ++ [made])).log = (call (after calls).log made).2 := by
    rw [after_concat]
    rfl
  have habout : (after (calls ++ [made])).about reason = (after calls).about reason := by
    rw [about_concat, hlines, List.append_nil]
  have hcount : ∀ first : List RejectCall, (first ++ [made]).countP (·.rejects reason) =
      first.countP (·.rejects reason) + if made.rejects reason then 1 else 0 := by
    intro first
    rw [List.countP_append, List.countP_singleton]
  refine ⟨by rwa [hlog], ?_, ?_⟩
  · rw [hcount, habout, hlog, hwindow, hbalance]
    rcases hfound : (after calls).log.window reason with _ | window
    · have hnot : ¬made.rejects reason = true := fun hrejects ↦ hopen hrejects hfound
      rw [if_neg hnot]
      rfl
    · exact Nat.add_assoc _ _ _
  · intro next hnext
    rw [hlog, hwindow, Option.map_eq_some_iff] at hnext
    obtain ⟨window, hfound, rfl⟩ := hnext
    obtain ⟨before, start, rest, hsplit, hnow, hline, hquiet, hheld⟩ := hbegan window hfound
    refine ⟨before, start, rest ++ [made], by rw [hsplit, List.append_assoc]; rfl, hnow, hline,
      habout.trans hquiet, ?_⟩
    rw [hcount, hheld]

/-- A call that says a line about the reason that accounts for what was held and for the call begins
a new window, or has one with nothing held. -/
theorem Accounts.said (haccounts : Accounts calls reason) {made : RejectCall} {line : RejectLine}
    (hone : (call (after calls).log made).2.OnePerReason) (hreason : line.reason = reason)
    (hlines : ((call (after calls).log made).1.filter fun line ↦ decide (line.reason = reason)) =
      [line])
    (hwindow : (call (after calls).log made).2.window reason = some ⟨reason, made.now, 0⟩)
    (hworth : line.firsts + line.counted = ((after calls).log.window reason).elim 0 Window.held +
      if made.rejects reason then 1 else 0) :
    Accounts (calls ++ [made]) reason := by
  obtain ⟨-, hbalance, -⟩ := haccounts
  have hlog : (after (calls ++ [made])).log = (call (after calls).log made).2 := by
    rw [after_concat]
    rfl
  refine ⟨by rwa [hlog], ?_, ?_⟩
  · rw [about_concat, hlines, hlog, hwindow, List.countP_append, List.countP_singleton,
      List.map_append,
      List.map_append, List.sum_append, List.sum_append, hbalance]
    simp only [List.map_cons, List.map_nil, List.sum_cons, List.sum_nil, Option.elim_some]
    omega
  · intro next hnext
    rw [hlog, hwindow, Option.some.injEq] at hnext
    refine ⟨calls, made, [], rfl, by rw [← hnext], ⟨line, ?_, hreason⟩, rfl, by rw [← hnext]; rfl⟩
    have hmem : line ∈ (call (after calls).log made).1.filter
        fun line ↦ decide (line.reason = reason) := by
      rw [hlines]
      exact List.mem_cons_self
    exact List.mem_of_mem_filter hmem

/-- A call that says nothing of a reason, brings no reject of it and forgets its window keeps the
accounts of the reason if the window held nothing: nothing is lost with it. -/
theorem Accounts.forgotten (haccounts : Accounts calls reason) {made : RejectCall}
    (hone : (call (after calls).log made).2.OnePerReason)
    (hlines :
      ((call (after calls).log made).1.filter fun line ↦ decide (line.reason = reason)) = [])
    (hwindow : (call (after calls).log made).2.window reason = none)
    (hempty : ((after calls).log.window reason).elim 0 Window.held = 0)
    (hrejects : ¬made.rejects reason = true) : Accounts (calls ++ [made]) reason := by
  have hbalance := haccounts.balance
  have hlog : (after (calls ++ [made])).log = (call (after calls).log made).2 := by
    rw [after_concat]
    rfl
  refine ⟨by rwa [hlog], ?_, fun next hnext ↦ ?_⟩
  · rw [about_concat, hlines, List.append_nil, hlog, hwindow, List.countP_append,
      List.countP_singleton, if_neg hrejects, hbalance, hempty]
    rfl
  · rw [hlog, hwindow] at hnext
    exact absurd hnext (Option.some_ne_none _).symm

/-- The accounts hold after every call. -/
theorem Accounts.concat (haccounts : Accounts calls reason) (made : RejectCall) :
    Accounts (calls ++ [made]) reason := by
  have hone := haccounts.one
  rcases made with ⟨other, now⟩ | now
  · obtain ⟨hsaid, hnext, hwindows⟩ := RejectLog.reject_spec hone other now
    have hwindow := hwindows reason
    by_cases hother : reason = other
    · subst hother
      rw [if_pos rfl] at hwindow
      have hrejects : (RejectCall.reject reason now).rejects reason = true := decide_eq_true rfl
      rcases hfound : (after calls).log.window reason with _ | window
      · rw [hfound] at hwindow hsaid
        refine haccounts.said hnext (rfl : RejectLine.reason (.first reason) = reason) ?_ hwindow ?_
        · show (((after calls).log.reject reason now).1.toList).filter _ = _
          rw [hsaid, if_pos rfl]
          exact List.filter_cons_of_pos (decide_eq_true rfl)
        · rw [hfound, if_pos hrejects]
          rfl
      · rw [hfound] at hwindow hsaid
        refine haccounts.quiet hnext ?_ ?_ fun _ ↦ by rw [hfound]; exact Option.some_ne_none _
        · show (((after calls).log.reject reason now).1.toList).filter _ = _
          rw [hsaid, if_neg (Option.some_ne_none _)]
          rfl
        · rw [hfound, if_pos hrejects]
          exact hwindow
    · have hrejects : ¬(RejectCall.reject other now).rejects reason = true := by
        show ¬decide (other = reason) = true
        rw [decide_eq_true_eq]
        exact Ne.symm hother
      rw [if_neg hother] at hwindow
      refine haccounts.quiet hnext ?_ ?_ fun hreject ↦ absurd hreject hrejects
      · rw [List.filter_eq_nil_iff]
        intro line hmem habout
        change line ∈ ((after calls).log.reject other now).1.toList at hmem
        rw [hsaid] at hmem
        split_ifs at hmem with hopen
        · rw [Option.toList_some, List.mem_singleton] at hmem
          rw [hmem] at habout
          exact hother (of_decide_eq_true habout).symm
        · exact absurd hmem List.not_mem_nil
      · rw [if_neg hrejects]
        exact hwindow.trans Option.map_id'.symm
  · have hrejects : ¬(RejectCall.due now).rejects reason = true := Bool.false_ne_true
    have hnext := RejectLog.onePerReason_due hone now
    have hlines := RejectLog.lines_due hone now reason
    have hwindow := RejectLog.window_due hone now reason
    have hsame : ∀ found : Option Window, (found.map fun window ↦
        { window with
          held := window.held + if (RejectCall.due now).rejects reason then 1 else 0 }) =
          found := fun found ↦ by rw [if_neg hrejects]; exact Option.map_id'
    rcases hfound : (after calls).log.window reason with _ | window
    · rw [hfound] at hlines hwindow
      refine haccounts.quiet hnext hlines ?_ fun hreject ↦ absurd hreject hrejects
      rw [hfound]
      exact hwindow
    · have hreason : window.reason = reason := by
        have hpick := List.find?_some hfound
        exact of_decide_eq_true hpick
      rw [hfound, Option.bind_some] at hlines hwindow
      by_cases hearly : now - window.since < rejectSummaryEvery
      · have hkeep : RejectLog.dueWindow now window = (some window, none) := if_pos hearly
        rw [hkeep] at hlines hwindow
        refine haccounts.quiet hnext hlines ?_ fun hreject ↦ absurd hreject hrejects
        rw [hsame, hfound]
        exact hwindow
      · by_cases hempty : window.held = 0
        · have hforget : RejectLog.dueWindow now window = (none, none) := by
            unfold RejectLog.dueWindow
            dsimp only
            rw [if_neg hearly, if_pos hempty]
          rw [hforget] at hlines hwindow
          refine haccounts.forgotten hnext hlines hwindow ?_ hrejects
          rw [hfound]
          exact hempty
        · have hsay : RejectLog.dueWindow now window =
            (some { window with since := now, held := 0 },
              some (.more window.reason window.held ((now - window.since) / 10 ^ 9))) := by
            unfold RejectLog.dueWindow
            dsimp only
            rw [if_neg hearly, if_neg hempty]
          rw [hsay] at hlines hwindow
          refine haccounts.said hnext (?_ : RejectLine.reason
            (.more window.reason window.held ((now - window.since) / 10 ^ 9)) = reason) hlines ?_ ?_
          · exact hreason
          · rw [← hreason]
            rw [← hreason] at hwindow
            exact hwindow
          · rw [hfound, if_neg hrejects]
            exact Nat.zero_add _

theorem accounts (calls : List RejectCall) (reason : String) : Accounts calls reason := by
  induction calls using List.reverseRecOn with
  | nil => exact accounts_nil reason
  | append_singleton calls made ih => exact ih.concat made

/-- The reason's windows are its window, if it has one. -/
theorem windows_of_reason {log : RejectLog} (hone : log.OnePerReason) (reason : String) :
    (log.openWindows.filter fun window ↦ decide (window.reason = reason)) =
      (log.window reason).toList := by
  have hkeeps : ∀ window made : Window, some window = some made → made.reason = window.reason :=
    fun window made hmade ↦ by rw [Option.some.inj hmade]
  have hsame := filter_filterMap hkeeps hone reason
  rwa [List.filterMap_some, Option.bind_fun_some] at hsame

/-- After every sequence of calls, for every reason: the rejects there were are those said at once,
those counted by `due` and those still held; the reason has at most one window; a count that `due`
would print now is of all the rejects since the last line about the reason, said at least
`REJECT_SUMMARY_EVERY` ago; and a reject would be said at once just where no window is open. -/
theorem no_reject_lost_or_invented (calls : List RejectCall) (reason : String) :
    calls.countP (·.rejects reason) =
        (((after calls).about reason).map RejectLine.firsts).sum +
          (((after calls).about reason).map RejectLine.counted).sum + (after calls).held reason ∧
      ((after calls).log.openWindows.countP fun window ↦ decide (window.reason = reason)) ≤ 1 ∧
      (∀ now held seconds, .more reason held seconds ∈ ((after calls).log.due now).1 →
        ∃ before start rest, calls = before ++ start :: rest ∧
          (∃ line ∈ (call (after before).log start).1, line.reason = reason) ∧
          (after calls).about reason = (after (before ++ [start])).about reason ∧
          held = rest.countP (·.rejects reason) ∧ rejectSummaryEvery ≤ now - start.now ∧
          seconds = (now - start.now) / 10 ^ 9) ∧
      ∀ now, ((after calls).log.reject reason now).1 =
        if ∃ window ∈ (after calls).log.openWindows, window.reason = reason then none
        else some (.first reason) := by
  obtain ⟨hone, hbalance, hbegan⟩ := accounts calls reason
  have hwindows := windows_of_reason hone reason
  refine ⟨?_, ?_, fun now held seconds hmem ↦ ?_, fun now ↦ ?_⟩
  · rw [hbalance, Told.held, hwindows]
    rcases (after calls).log.window reason with _ | window
    · rfl
    · rfl
  · rw [List.countP_eq_length_filter, hwindows]
    exact Option.length_toList_le
  · have hline : .more reason held seconds ∈ ((after calls).log.due now).1.filter
        fun line ↦ decide (line.reason = reason) := List.mem_filter.mpr ⟨hmem, decide_eq_true rfl⟩
    rw [RejectLog.lines_due hone, Option.mem_toList, Option.bind_eq_some_iff] at hline
    obtain ⟨window, hfound, hsaid⟩ := hline
    obtain ⟨before, start, rest, hsplit, hnow, hstart, hquiet, hheld⟩ := hbegan window hfound
    unfold RejectLog.dueWindow at hsaid
    dsimp only at hsaid
    split_ifs at hsaid with hearly hempty
    rw [Option.some.injEq, RejectLine.more.injEq] at hsaid
    obtain ⟨-, hcount, hseconds⟩ := hsaid
    exact ⟨before, start, rest, hsplit, hstart, hquiet, by rw [hheld, hcount],
      by rw [hnow]; exact Nat.not_lt.mp hearly, by rw [hnow, hseconds]⟩
  · rw [(RejectLog.reject_spec hone reason now).1]
    rcases hfound : (after calls).log.window reason with _ | window
    · have hnone : ¬∃ window ∈ (after calls).log.openWindows, window.reason = reason := by
        rintro ⟨window, hopen, hreason⟩
        exact List.find?_eq_none.mp hfound window hopen (decide_eq_true hreason)
      rw [if_pos rfl, if_neg hnone]
    · have hopen : ∃ window ∈ (after calls).log.openWindows, window.reason = reason := by
        refine ⟨window, List.mem_of_find?_eq_some hfound, ?_⟩
        have hpick := List.find?_some hfound
        exact of_decide_eq_true hpick
      rw [if_neg (Option.some_ne_none window), if_pos hopen]

end Told

end Bc3Miner.Pool
