import Mathlib.Logic.Function.Basic
import Mathlib.Tactic.SplitIfs
import GenericOs.Library.Transition

/-!
# The queue lock of `MCS.c`

`MCSLock` and `MCSUnlock` as their atomic steps, for threads that share one `top` and
lock it with tickets of their own. Memory is sequentially consistent.
-/

namespace GenericOs.Mcs

open Transition (System)

variable {Thread Ticket : Type}

/-- What a thread does next. In `critical` it has returned from `MCSLock`, and next calls `MCSUnlock`. -/
inductive Pc (Ticket : Type) where
  | idle
  | write (newTop : Ticket) (prevTop : Option Ticket)
  | testPrev (newTop : Ticket)
  | testFinished (newTop : Ticket)
  | critical (ticket : Ticket)
  | clear (ticket : Ticket)
  deriving DecidableEq

/-- `top` and, for each ticket, the fields of `struct MCSLockTicket`. -/
structure State (Thread Ticket : Type) where
  top : Option Ticket
  prev : Ticket → Option Ticket
  finished : Ticket → Bool
  pc : Thread → Pc Ticket

/-- A thread calls `MCSLock` with a ticket, or goes on. -/
inductive Event (Thread Ticket : Type) where
  | lock (u : Thread) (newTop : Ticket)
  | run (u : Thread)
  deriving DecidableEq

variable [DecidableEq Thread] [DecidableEq Ticket]

/-- A null `Prev` that is followed would be a fault (`none`). -/
def exec (owner : Ticket → Thread) (s : State Thread Ticket) : Event Thread Ticket → Option (State Thread Ticket)
  | .lock u newTop =>
    -- `AtomicExchange64( top, newTop )`
    match s.pc u with
    | .idle =>
      if owner newTop = u then
        some { s with top := some newTop, pc := Function.update s.pc u (.write newTop s.top) }
      else none
    | _ => none
  | .run u =>
    match s.pc u with
    | .idle => none
    | .write newTop prevTop => some
      { s with
        prev := Function.update s.prev newTop prevTop
        finished := Function.update s.finished newTop false
        pc := Function.update s.pc u (.testPrev newTop) }
    | .testPrev newTop =>
      match s.prev newTop with
      | none => some { s with pc := Function.update s.pc u (.critical newTop) }
      | some _ => some { s with pc := Function.update s.pc u (.testFinished newTop) }
    | .testFinished newTop =>
      match s.prev newTop with
      | none => none
      | some prev =>
        if s.finished prev then some { s with pc := Function.update s.pc u (.critical newTop) }
        else some { s with pc := Function.update s.pc u (.testPrev newTop) }
    | .critical ticket => some
      { s with
        finished := Function.update s.finished ticket true
        pc := Function.update s.pc u (.clear ticket) }
    | .clear ticket => some
      { s with
        prev := Function.update s.prev ticket none
        pc := Function.update s.pc u .idle }

/-- The lock is new and no thread is in it. What the tickets hold is arbitrary. -/
structure Start (s : State Thread Ticket) : Prop where
  top : s.top = none
  idle : ∀ u, s.pc u = .idle

def mcs (owner : Ticket → Thread) : System (State Thread Ticket) (Event Thread Ticket) :=
  { init := Start, step := fun s e s' => exec owner s e = some s' }

/-- A new lock for two threads with one ticket each, which were used before. -/
def newLock : State Bool Bool where
  top := none
  prev _ := none
  finished _ := true
  pc _ := .idle

theorem newLock_start : Start newLock := ⟨rfl, fun _ => rfl⟩

/-- The second thread comes while the first one is on its way in, and waits. -/
def contended : List (Event Bool Bool) :=
  [.lock false false, .lock true true, .run false, .run true, .run false, .run true, .run true, .run true]

/-- The first thread unlocks, and the second gets in. -/
def handover : List (Event Bool Bool) := [.run false, .run false, .run true]

/-! ## The steps, one by one -/

/-- The ticket that a thread is locking or unlocking with. -/
def Pc.ticket : Pc Ticket → Option Ticket
  | .idle => none
  | .write newTop _ => some newTop
  | .testPrev newTop => some newTop
  | .testFinished newTop => some newTop
  | .critical ticket => some ticket
  | .clear ticket => some ticket

inductive Moves (owner : Ticket → Thread) (s : State Thread Ticket) :
    Event Thread Ticket → State Thread Ticket → Prop
  | lock {u : Thread} {t : Ticket} (hpc : s.pc u = .idle) (how : owner t = u) :
    Moves owner s (.lock u t) { s with top := some t, pc := Function.update s.pc u (.write t s.top) }
  | write {u : Thread} {t : Ticket} {p : Option Ticket} (hpc : s.pc u = .write t p) :
    Moves owner s (.run u)
      { s with
        prev := Function.update s.prev t p
        finished := Function.update s.finished t false
        pc := Function.update s.pc u (.testPrev t) }
  | free {u : Thread} {t : Ticket} (hpc : s.pc u = .testPrev t) (hprev : s.prev t = none) :
    Moves owner s (.run u) { s with pc := Function.update s.pc u (.critical t) }
  | wait {u : Thread} {t p : Ticket} (hpc : s.pc u = .testPrev t) (hprev : s.prev t = some p) :
    Moves owner s (.run u) { s with pc := Function.update s.pc u (.testFinished t) }
  | enter {u : Thread} {t p : Ticket} (hpc : s.pc u = .testFinished t) (hprev : s.prev t = some p)
    (hfin : s.finished p = true) :
    Moves owner s (.run u) { s with pc := Function.update s.pc u (.critical t) }
  | again {u : Thread} {t p : Ticket} (hpc : s.pc u = .testFinished t) (hprev : s.prev t = some p)
    (hfin : s.finished p = false) :
    Moves owner s (.run u) { s with pc := Function.update s.pc u (.testPrev t) }
  | finish {u : Thread} {t : Ticket} (hpc : s.pc u = .critical t) :
    Moves owner s (.run u)
      { s with
        finished := Function.update s.finished t true
        pc := Function.update s.pc u (.clear t) }
  | clear {u : Thread} {t : Ticket} (hpc : s.pc u = .clear t) :
    Moves owner s (.run u)
      { s with
        prev := Function.update s.prev t none
        pc := Function.update s.pc u .idle }

variable {owner : Ticket → Thread} {s s' : State Thread Ticket} {e : Event Thread Ticket}

theorem exec_moves (h : exec owner s e = some s') : Moves owner s e s' := by
  cases e with
  | lock u t =>
    unfold exec at h
    cases hpc : s.pc u with
    | idle =>
      simp only [hpc] at h
      split_ifs at h with how
      cases h
      exact .lock hpc how
    | _ => simp [hpc] at h
  | run u =>
    unfold exec at h
    cases hpc : s.pc u with
    | idle => simp [hpc] at h
    | write t p =>
      simp only [hpc, Option.some.injEq] at h
      subst h
      exact .write hpc
    | testPrev t =>
      cases hprev : s.prev t with
      | none =>
        simp only [hpc, hprev, Option.some.injEq] at h
        subst h
        exact .free hpc hprev
      | some p =>
        simp only [hpc, hprev, Option.some.injEq] at h
        subst h
        exact .wait hpc hprev
    | testFinished t =>
      cases hprev : s.prev t with
      | none => simp [hpc, hprev] at h
      | some p =>
        simp only [hpc, hprev] at h
        split_ifs at h with hfin
        · cases h
          exact .enter hpc hprev hfin
        · cases h
          exact .again hpc hprev (by simpa using hfin)
    | critical t =>
      simp only [hpc, Option.some.injEq] at h
      subst h
      exact .finish hpc
    | clear t =>
      simp only [hpc, Option.some.injEq] at h
      subst h
      exact .clear hpc

/-- Threads use tickets of their own only. -/
def Owned (owner : Ticket → Thread) (s : State Thread Ticket) : Prop :=
  ∀ u t, (s.pc u).ticket = some t → owner t = u

omit [DecidableEq Thread] [DecidableEq Ticket] in
theorem Start.owned (h : Start s) : Owned owner s := by
  intro u t ht
  rw [h.idle] at ht
  cases ht

theorem Owned.step (h : Owned owner s) (hm : Moves owner s e s') : Owned owner s' := by
  have hupdate : ∀ (u : Thread) (pc : Pc Ticket), (∀ t, pc.ticket = some t → owner t = u) →
      ∀ v t, (Function.update s.pc u pc v).ticket = some t → owner t = v := by
    intro u pc hu v t hv
    by_cases hvu : v = u
    · subst hvu
      rw [Function.update_self] at hv
      exact hu t hv
    · rw [Function.update_of_ne hvu] at hv
      exact h v t hv
  cases hm with
  | lock hpc how =>
    refine hupdate _ _ ?_
    rintro _ ⟨⟩
    exact how
  | clear hpc =>
    refine hupdate _ _ ?_
    rintro _ ⟨⟩
  | write hpc | free hpc | wait hpc | enter hpc | again hpc | finish hpc =>
    refine hupdate _ _ ?_
    rintro _ ⟨⟩
    exact h _ _ (by rw [hpc]; rfl)

end GenericOs.Mcs
