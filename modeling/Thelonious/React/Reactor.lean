import Thelonious.Lib.Schedule

/-!
# The reactor

`ReactorEngine` with the goroutines that use it: any number of callers of `Post`, `Stop` and
`Flush`, and the dispatcher that `Start` starts.  One lock, a channel of at most
`eventBufferSize` events and the channel `drained` are shared.  `Post` sends while it holds the
lock, and the dispatcher needs the lock for every event it has received.
-/

namespace Thelonious.React

open Schedule

def eventBufferSize : Nat := 10

structure Event (ρ : Type) where
  resource : ρ
  name : String
deriving DecidableEq

/-- A buffered channel of a subscriber. -/
structure EventChan (ρ : Type) where
  capacity : Nat
  buffer : List (Event ρ)

/-- The channels `EventHandler.Add` has appended, in their order. -/
structure EventHandler (χ : Type) where
  name : String
  chans : List χ

/-- Where a goroutine is in its call of the reactor. -/
inductive Call (ρ : Type)
  | idle
  -- `Post`: before the lock, at the test of `running`, at the send, at the select, at the unlock
  | post (event : Event ρ)
  | checking (event : Event ρ)
  | sending (event : Event ρ)
  | draining
  | unlocking
  -- `Stop`: at the test of `running`, at the send on `quit`, at the select, at the status
  | stop
  | quitting
  | clearing
  | awaiting
  | flush
deriving DecidableEq

/-- Where the dispatcher is. -/
inductive Dispatcher (κ χ ρ : Type)
  | absent
  | selecting
  -- `dispatch`: before the lock, at the channels that are left
  | received (event : Event ρ)
  | delivering (event : Event ρ) (chans : List χ)
  | signalling
  -- the request to quit: before the lock, at the status, at the deferred unlock
  | quitting (caller : κ)
  | stopped (caller : κ)
  | leaving
deriving DecidableEq

inductive Holder (κ : Type)
  | caller (caller : κ)
  | dispatcher
deriving DecidableEq

structure ReactorEngine (κ χ ρ : Type) where
  lock : Option (Holder κ)
  eventChannel : List (Event ρ)
  eventHandlers : String → Option (EventHandler χ)
  -- the call of `Stop` whose status channel is in the buffer
  quit : Option κ
  running : Bool
  drained : Bool

/-- The reactor, its goroutines and the channels of its subscribers. -/
structure Reactor (κ χ ρ : Type) extends ReactorEngine κ χ ρ where
  calls : κ → Call ρ
  dispatcher : Dispatcher κ χ ρ
  channels : χ → EventChan ρ

inductive Action (κ χ ρ : Type)
  | start
  | subscribe (name : String) (chan : χ)
  | unsubscribe (name : String) (chan : χ)
  -- a goroutine calls `Post`, `Stop` or `Flush`, and takes the next step of its call
  | post (caller : κ) (event : Event ρ)
  | stop (caller : κ)
  | flush (caller : κ)
  | advance (caller : κ)
  -- the cases of the dispatcher's select, and its other steps
  | takeQuit
  | takeEvent
  | takeDefault
  | dispatch
  -- a subscriber receives
  | receive (chan : χ)

namespace EventHandler

variable {χ : Type} [DecidableEq χ]

/-- One round of the loop of `Remove`: the loop ranges over the array, of which the handler's
slice is the first `len` entries.  Slicing past `len` panics. -/
def removeAt (chan : χ) (slice : List χ × Nat) (i : Nat) : Option (List χ × Nat) :=
  let (array, len) := slice
  if array[i]? = some chan then
    if len < i + 1 then none
    else some (array.take i ++ (array.take len).drop (i + 1) ++ array.drop (len - 1), len - 1)
  else some slice

def remove (handler : EventHandler χ) (chan : χ) : Option (EventHandler χ) := do
  let (array, len) ← (List.range handler.chans.length).foldlM (removeAt chan)
    (handler.chans, handler.chans.length)
  return { handler with chans := array.take len }

end EventHandler

namespace Reactor

variable {κ χ ρ : Type} {r after : Reactor κ χ ρ}

/-- `New`, with every goroutine outside the reactor. -/
def new (channels : χ → EventChan ρ) : Reactor κ χ ρ where
  lock := none
  eventChannel := []
  eventHandlers := fun _ => none
  quit := none
  running := false
  drained := false
  calls := fun _ => .idle
  dispatcher := .absent
  channels := channels

def start (r : Reactor κ χ ρ) : Reactor κ χ ρ :=
  if r.running then r else { r with dispatcher := .selecting, running := true }

def subscribe (r : Reactor κ χ ρ) (name : String) (chan : χ) : Reactor κ χ ρ :=
  let handler := (r.eventHandlers name).getD ⟨name, []⟩
  let added := { handler with chans := handler.chans ++ [chan] }
  { r with eventHandlers := Function.update r.eventHandlers name (some added) }

section

variable [DecidableEq χ]

def unsubscribe (r : Reactor κ χ ρ) (name : String) (chan : χ) : Option (Reactor κ χ ρ) :=
  match r.eventHandlers name with
  | none => some r
  | some handler => do
      let handler ← handler.remove chan
      let left := if handler.chans.length = 0 then none else some handler
      return { r with eventHandlers := Function.update r.eventHandlers name left }

theorem unsubscribe_eq {name : String} {chan : χ}
    (unsubscribed : r.unsubscribe name chan = some after) :
    ∃ handlers, after = { r with eventHandlers := handlers } := by
  unfold unsubscribe at unsubscribed
  split at unsubscribed
  · cases unsubscribed
    exact ⟨r.eventHandlers, rfl⟩
  · obtain ⟨handler, -, returned⟩ := Option.bind_eq_some_iff.mp unsubscribed
    cases returned
    exact ⟨_, rfl⟩

/-- The send of `EventHandler.Post`, which skips a channel that is full. -/
def offer (r : Reactor κ χ ρ) (event : Event ρ) (chan : χ) : Reactor κ χ ρ :=
  let channel := r.channels chan
  let filled := { channel with buffer := channel.buffer ++ [event] }
  if channel.buffer.length < channel.capacity then
    { r with channels := Function.update r.channels chan filled }
  else r

theorem offer_eq (r : Reactor κ χ ρ) (event : Event ρ) (chan : χ) :
    ∃ channels, r.offer event chan = { r with channels := channels } := by
  simp only [offer]
  split
  · exact ⟨_, rfl⟩
  · exact ⟨r.channels, rfl⟩

end

variable [DecidableEq κ]

def goTo (r : Reactor κ χ ρ) (caller : κ) (call : Call ρ) : Reactor κ χ ρ :=
  { r with calls := Function.update r.calls caller call }

/-- A goroutine outside the reactor calls one of its functions. -/
def enter (r : Reactor κ χ ρ) (caller : κ) (call : Call ρ) : Option (Reactor κ χ ρ) :=
  match r.calls caller with
  | .idle => some (r.goTo caller call)
  | _ => none

/-- The next step of a call; `none` while it is blocked. -/
def advance (r : Reactor κ χ ρ) (caller : κ) : Option (Reactor κ χ ρ) :=
  match r.calls caller with
  | .idle => none
  | .post event =>
      if r.lock.isNone then
        some ({ r with lock := some (.caller caller) }.goTo caller (.checking event))
      else none
  | .checking event =>
      some (r.goTo caller (if r.running then .sending event else .unlocking))
  | .sending event =>
      if r.eventChannel.length < eventBufferSize then
        some ({ r with eventChannel := r.eventChannel ++ [event] }.goTo caller .draining)
      else none
  | .draining => some ({ r with drained := false }.goTo caller .unlocking)
  | .unlocking => some ({ r with lock := none }.goTo caller .idle)
  | .stop => some (r.goTo caller (if r.running then .quitting else .idle))
  | .quitting =>
      if r.quit.isNone then some ({ r with quit := some caller }.goTo caller .clearing) else none
  | .clearing => some ({ r with drained := false }.goTo caller .awaiting)
  -- the receive from the status channel is the dispatcher's send
  | .awaiting => none
  | .flush => if r.drained then some ({ r with drained := false }.goTo caller .idle) else none

variable [DecidableEq χ]

/-- A step of the dispatcher outside its select; `none` while it is blocked. -/
def dispatch (r : Reactor κ χ ρ) : Option (Reactor κ χ ρ) :=
  match r.dispatcher with
  | .absent => none
  | .selecting => none
  | .received event =>
      if r.lock.isNone then
        let chans := ((r.eventHandlers event.name).map EventHandler.chans).getD []
        some { r with lock := some .dispatcher, dispatcher := .delivering event chans }
      else none
  | .delivering event (chan :: rest) =>
      some { r.offer event chan with dispatcher := .delivering event rest }
  | .delivering _ [] => some { r with lock := none, dispatcher := .selecting }
  | .signalling =>
      if r.drained then none else some { r with drained := true, dispatcher := .selecting }
  | .quitting caller =>
      if r.lock.isNone then
        some { r with lock := some .dispatcher, running := false, dispatcher := .stopped caller }
      else none
  | .stopped caller =>
      match r.calls caller with
      | .awaiting => some { r.goTo caller .idle with dispatcher := .leaving }
      | _ => none
  | .leaving => some { r with lock := none, dispatcher := .absent }

/-- A step of the system.  The sections of `Start`, `Subscribe` and `Unsubscribe` block on
nothing once they have the lock.  The dispatcher's select takes a case that is ready, its
default only if none is. -/
def step (r : Reactor κ χ ρ) : Action κ χ ρ → Option (Reactor κ χ ρ)
  | .start => if r.lock.isNone then some r.start else none
  | .subscribe name chan => if r.lock.isNone then some (r.subscribe name chan) else none
  | .unsubscribe name chan => if r.lock.isNone then r.unsubscribe name chan else none
  | .post caller event => r.enter caller (.post event)
  | .stop caller => r.enter caller .stop
  | .flush caller => r.enter caller .flush
  | .advance caller => r.advance caller
  | .takeQuit =>
      match r.dispatcher, r.quit with
      | .selecting, some caller => some { r with quit := none, dispatcher := .quitting caller }
      | _, _ => none
  | .takeEvent =>
      match r.dispatcher, r.eventChannel with
      | .selecting, event :: rest =>
          some { r with eventChannel := rest, dispatcher := .received event }
      | _, _ => none
  | .takeDefault =>
      match r.dispatcher, r.quit, r.eventChannel with
      | .selecting, none, [] => some { r with dispatcher := .signalling }
      | _, _, _ => none
  | .dispatch => r.dispatch
  | .receive chan =>
      match (r.channels chan).buffer with
      | [] => none
      | _ :: rest =>
          let taken := { r.channels chan with buffer := rest }
          some { r with channels := Function.update r.channels chan taken }

/-- A `Post` holds the lock at its send on a full channel, and the dispatcher waits for the lock
with an event it has received. -/
def Deadlocked (r : Reactor κ χ ρ) : Prop :=
  ∃ caller event waiting, r.lock = some (.caller caller) ∧ r.calls caller = .sending event ∧
    eventBufferSize ≤ r.eventChannel.length ∧ r.dispatcher = .received waiting

/-- The states that the steps of the goroutines reach from `New`. -/
def Reaches (allowed : Reactor κ χ ρ → Action κ χ ρ → Bool) (channels : χ → EventChan ρ) :
    Reactor κ χ ρ → Prop :=
  Run step (fun r action => allowed r action = true) (new channels)

end Reactor

/-! ### Who holds the lock -/

/-- The call is between its `Lock` and its `Unlock`. -/
def Call.Holds {ρ : Type} : Call ρ → Prop
  | .checking _ => True
  | .sending _ => True
  | .draining => True
  | .unlocking => True
  | _ => False

/-- The call holds the lock and has a send ahead of it. -/
def Call.Sends {ρ : Type} (running : Bool) : Call ρ → Prop
  | .checking _ => running = true
  | .sending _ => True
  | _ => False

theorem Call.Sends.holds {ρ : Type} {running : Bool} {call : Call ρ} (sends : call.Sends running) :
    call.Holds := by
  cases call with
  | checking => trivial
  | sending => trivial
  | _ => exact sends.elim

def Dispatcher.Holds {κ χ ρ : Type} : Dispatcher κ χ ρ → Prop
  | .delivering _ _ => True
  | .stopped _ => True
  | .leaving => True
  | _ => False

namespace Reactor

variable {κ χ ρ : Type} {r after : Reactor κ χ ρ}

/-- The lock belongs to whoever is in a locked section, and in a calm run a call that will send
has room. -/
structure Guarded (calm : Prop) (r : Reactor κ χ ρ) : Prop where
  caller : ∀ caller, (r.calls caller).Holds → r.lock = some (.caller caller)
  dispatcher : r.dispatcher.Holds → r.lock = some .dispatcher
  room : calm → ∀ caller, (r.calls caller).Sends r.running →
    r.eventChannel.length < eventBufferSize

variable {calm : Prop}

theorem guarded_new (channels : χ → EventChan ρ) :
    Guarded calm (new channels : Reactor κ χ ρ) where
  caller _ holds := holds.elim
  dispatcher holds := holds.elim
  room _ _ sends := sends.elim

theorem Guarded.not_deadlocked (guarded : Guarded calm r) (isCalm : calm) : ¬ r.Deadlocked := by
  rintro ⟨caller, event, waiting, -, calling, full, -⟩
  have room := guarded.room isCalm caller (by rw [calling]; trivial)
  exact absurd room (Nat.not_lt.mpr full)

/-- What a step leaves to a call: it was in its locked section before, and nothing it depends
on has changed. -/
structure Undisturbed (r after : Reactor κ χ ρ) (caller : κ) : Prop where
  call : after.calls caller = r.calls caller
  lock : after.lock = r.lock
  running : after.running = r.running
  eventChannel : after.eventChannel.length ≤ r.eventChannel.length

theorem Guarded.change (guarded : Guarded calm r)
    (callers : ∀ caller, (after.calls caller).Holds → Undisturbed r after caller ∨
      after.lock = some (.caller caller) ∧ (calm → (after.calls caller).Sends after.running →
        after.eventChannel.length < eventBufferSize))
    (dispatcher : after.dispatcher.Holds → after.lock = some .dispatcher) : Guarded calm after where
  caller caller holds := by
    rcases callers caller holds with undisturbed | ⟨lock, -⟩
    · rw [undisturbed.lock]
      apply guarded.caller
      rwa [← undisturbed.call]
    · exact lock
  dispatcher := dispatcher
  room isCalm caller sends := by
    rcases callers caller sends.holds with undisturbed | ⟨-, room⟩
    · apply lt_of_le_of_lt undisturbed.eventChannel
      apply guarded.room isCalm caller
      rwa [← undisturbed.call, ← undisturbed.running]
    · exact room isCalm sends

variable {caller : κ} {call : Call ρ}

theorem Guarded.holder (guarded : Guarded calm r) (calling : r.calls caller = call)
    (holds : call.Holds) : r.lock = some (.caller caller) := by
  apply guarded.caller
  rwa [calling]

/-- A step that leaves the calls where they are. -/
theorem Guarded.still (guarded : Guarded calm r) (calls : after.calls = r.calls)
    (frame : ∀ caller, r.lock = some (.caller caller) → after.lock = r.lock ∧
      after.running = r.running ∧ after.eventChannel.length ≤ r.eventChannel.length)
    (dispatcher : after.dispatcher.Holds → after.lock = some .dispatcher) : Guarded calm after := by
  apply guarded.change _ dispatcher
  intro caller holds
  rw [calls] at holds
  obtain ⟨lock, running, eventChannel⟩ := frame caller (guarded.caller caller holds)
  exact .inl ⟨congrFun calls caller, lock, running, eventChannel⟩

/-- The lock changes hands only if it is free or the dispatcher's. -/
theorem Guarded.freeing (guarded : Guarded calm r) (calls : after.calls = r.calls)
    (free : r.lock = none ∨ r.lock = some .dispatcher)
    (dispatcher : after.dispatcher.Holds → after.lock = some .dispatcher) : Guarded calm after := by
  refine guarded.still calls ?_ dispatcher
  intro caller lock
  rcases free with free | free
  · exact absurd (lock.symm.trans free) (by simp)
  · exact absurd (lock.symm.trans free) (by simp)

variable [DecidableEq κ]

/-- The holder of the lock moves: no other call is in its locked section. -/
theorem Guarded.move (guarded : Guarded calm r)
    (calls : after.calls = Function.update r.calls caller call)
    (free : r.lock = none ∨ r.lock = some (.caller caller))
    (self : call.Holds → after.lock = some (.caller caller))
    (room : calm → call.Sends after.running → after.eventChannel.length < eventBufferSize)
    (dispatcher : after.dispatcher = r.dispatcher) : Guarded calm after := by
  apply guarded.change
  · intro other holds
    rw [calls] at holds ⊢
    by_cases same : other = caller
    · subst same
      rw [Function.update_self] at holds ⊢
      exact .inr ⟨self holds, room⟩
    · rw [Function.update_of_ne same] at holds
      have lock := guarded.caller other holds
      rcases free with free | free
      · exact absurd (lock.symm.trans free) (by simp)
      · rw [free, Option.some.injEq, Holder.caller.injEq] at lock
        exact absurd lock.symm same
  · intro holds
    rw [dispatcher] at holds
    have lock := guarded.dispatcher holds
    rcases free with free | free
    · exact absurd (lock.symm.trans free) (by simp)
    · exact absurd (lock.symm.trans free) (by simp)

/-- A step outside the locked sections. -/
theorem Guarded.outside (guarded : Guarded calm r)
    (calls : after.calls = Function.update r.calls caller call) (outside : ¬ call.Holds)
    (lock : after.lock = r.lock) (running : after.running = r.running)
    (eventChannel : after.eventChannel = r.eventChannel)
    (dispatcher : after.dispatcher.Holds → r.dispatcher.Holds) : Guarded calm after := by
  apply guarded.change
  · intro other holds
    rw [calls] at holds
    by_cases same : other = caller
    · subst same
      rw [Function.update_self] at holds
      exact absurd holds outside
    · refine .inl ⟨?_, lock, running, by rw [eventChannel]⟩
      rw [calls, Function.update_of_ne same]
  · intro holds
    rw [lock]
    exact guarded.dispatcher (dispatcher holds)

/-- A `Post` takes the lock of a running reactor only while the channel has room. -/
def unhurried (r : Reactor κ χ ρ) : Action κ χ ρ → Bool
  | .advance caller =>
      match r.calls caller with
      | .post _ => !r.running || decide (r.eventChannel.length < eventBufferSize)
      | _ => true
  | _ => true

theorem Guarded.enter (guarded : Guarded calm r) (outside : ¬ call.Holds)
    (entered : r.enter caller call = some after) : Guarded calm after := by
  unfold Reactor.enter at entered
  split at entered
  · cases entered
    exact guarded.outside rfl outside rfl rfl rfl id
  · exact absurd entered (by simp)

theorem Guarded.advance (guarded : Guarded calm r)
    (allowed : calm → r.unhurried (.advance caller) = true)
    (stepped : r.advance caller = some after) : Guarded calm after := by
  unfold Reactor.advance at stepped
  cases calling : r.calls caller with
  | idle => simp [calling] at stepped
  | post event =>
      simp only [calling, Option.isNone_iff_eq_none, Option.ite_none_right_eq_some] at stepped
      obtain ⟨free, stepped⟩ := stepped
      cases stepped
      refine guarded.move rfl (.inl free) (fun _ => rfl) ?_ rfl
      · intro isCalm running
        have unhurried := allowed isCalm
        simp only [Reactor.unhurried, calling, Bool.or_eq_true, Bool.not_eq_true',
          decide_eq_true_eq] at unhurried
        rcases unhurried with stopped | room
        · exact absurd (stopped.symm.trans running) (by simp)
        · exact room
  | checking event =>
      simp only [calling] at stepped
      cases stepped
      have holds := guarded.holder calling trivial
      refine guarded.move rfl (.inr holds) (fun _ => holds) ?_ rfl
      · intro isCalm sends
        apply guarded.room isCalm caller
        rw [calling]
        by_cases running : r.running = true
        · exact running
        · rw [if_neg running] at sends
          exact sends.elim
  | sending event =>
      simp only [calling, Option.ite_none_right_eq_some] at stepped
      obtain ⟨-, stepped⟩ := stepped
      cases stepped
      have holds := guarded.holder calling trivial
      exact guarded.move rfl (.inr holds) (fun _ => holds) (fun _ => False.elim) rfl
  | draining =>
      simp only [calling] at stepped
      cases stepped
      have holds := guarded.holder calling trivial
      exact guarded.move rfl (.inr holds) (fun _ => holds) (fun _ => False.elim) rfl
  | unlocking =>
      simp only [calling] at stepped
      cases stepped
      have holds := guarded.holder calling trivial
      exact guarded.move rfl (.inr holds) False.elim (fun _ => False.elim) rfl
  | stop =>
      simp only [calling] at stepped
      cases stepped
      refine guarded.outside rfl ?_ rfl rfl rfl id
      split
      · exact id
      · exact id
  | quitting | flush =>
      simp only [calling, Option.ite_none_right_eq_some] at stepped
      obtain ⟨-, stepped⟩ := stepped
      cases stepped
      exact guarded.outside rfl id rfl rfl rfl id
  | clearing =>
      simp only [calling] at stepped
      cases stepped
      exact guarded.outside rfl id rfl rfl rfl id
  | awaiting => simp [calling] at stepped

variable [DecidableEq χ]

theorem Guarded.dispatch (guarded : Guarded calm r) (stepped : r.dispatch = some after) :
    Guarded calm after := by
  unfold Reactor.dispatch at stepped
  cases place : r.dispatcher with
  | absent => simp [place] at stepped
  | selecting => simp [place] at stepped
  | received event | quitting caller =>
      simp only [place, Option.isNone_iff_eq_none, Option.ite_none_right_eq_some] at stepped
      obtain ⟨free, stepped⟩ := stepped
      cases stepped
      exact guarded.freeing rfl (.inl free) fun _ => rfl
  | delivering event chans =>
      have holds := guarded.dispatcher (by rw [place]; trivial)
      cases chans with
      | nil =>
          simp only [place] at stepped
          cases stepped
          exact guarded.freeing rfl (.inr holds) False.elim
      | cons chan rest =>
          simp only [place] at stepped
          obtain ⟨channels, offered⟩ := r.offer_eq event chan
          rw [offered] at stepped
          cases stepped
          exact guarded.freeing rfl (.inr holds) fun _ => holds
  | signalling =>
      simp only [place, Option.ite_none_left_eq_some] at stepped
      obtain ⟨-, stepped⟩ := stepped
      cases stepped
      exact guarded.still rfl (fun _ _ => ⟨rfl, rfl, le_rfl⟩) False.elim
  | stopped caller =>
      simp only [place] at stepped
      split at stepped
      · cases stepped
        refine guarded.outside rfl id rfl rfl rfl ?_
        intro _
        rw [place]
        trivial
      · exact absurd stepped (by simp)
  | leaving =>
      simp only [place] at stepped
      cases stepped
      have holds := guarded.dispatcher (by rw [place]; trivial)
      exact guarded.freeing rfl (.inr holds) False.elim

theorem Guarded.step (guarded : Guarded calm r) {action : Action κ χ ρ}
    (allowed : calm → r.unhurried action = true) (stepped : r.step action = some after) :
    Guarded calm after := by
  cases action with
  | start =>
      simp only [Reactor.step, Option.isNone_iff_eq_none, Option.ite_none_right_eq_some,
        Option.some.injEq] at stepped
      obtain ⟨free, rfl⟩ := stepped
      unfold Reactor.start
      split
      · exact guarded
      · exact guarded.freeing rfl (.inl free) False.elim
  | subscribe name chan =>
      simp only [Reactor.step, Option.ite_none_right_eq_some, Option.some.injEq] at stepped
      obtain ⟨-, rfl⟩ := stepped
      exact guarded.still rfl (fun _ _ => ⟨rfl, rfl, le_rfl⟩) guarded.dispatcher
  | unsubscribe name chan =>
      simp only [Reactor.step, Option.ite_none_right_eq_some] at stepped
      obtain ⟨handlers, rfl⟩ := unsubscribe_eq stepped.2
      exact guarded.still rfl (fun _ _ => ⟨rfl, rfl, le_rfl⟩) guarded.dispatcher
  | post caller event | stop caller | flush caller => exact guarded.enter id stepped
  | advance caller => exact guarded.advance allowed stepped
  | takeQuit | takeDefault =>
      simp only [Reactor.step] at stepped
      split at stepped
      · cases stepped
        exact guarded.still rfl (fun _ _ => ⟨rfl, rfl, le_rfl⟩) False.elim
      · exact absurd stepped (by simp)
  | takeEvent =>
      simp only [Reactor.step] at stepped
      split at stepped
      case h_1 event rest place queued =>
        cases stepped
        refine guarded.still rfl (fun _ _ => ⟨rfl, rfl, ?_⟩) False.elim
        rw [queued]
        exact Nat.le_succ _
      case h_2 => exact absurd stepped (by simp)
  | dispatch => exact guarded.dispatch stepped
  | receive chan =>
      simp only [Reactor.step] at stepped
      split at stepped
      · exact absurd stepped (by simp)
      · cases stepped
        exact guarded.still rfl (fun _ _ => ⟨rfl, rfl, le_rfl⟩) guarded.dispatcher

/-- If every `Post` takes the lock of the running reactor while its channel has room, no state
has a `Post` that holds the lock at a full channel and a dispatcher that waits for the lock. -/
theorem reactor_never_deadlocks (channels : χ → EventChan ρ)
    (reached : Reaches unhurried channels r) : ¬ r.Deadlocked := by
  have guarded : Guarded True r := by
    apply reached.invariant (Guarded True) _ (guarded_new channels)
    intro state action after guarded allowed stepped
    exact guarded.step (fun _ => allowed) stepped
  exact guarded.not_deadlocked trivial

/-- No two goroutines are between a `Lock` and its `Unlock` at a time. -/
theorem locked_sections_exclusive (channels : χ → EventChan ρ)
    (reached : Reaches (fun _ _ => true) channels r) (caller other : κ)
    (holds : (r.calls caller).Holds) :
    ((r.calls other).Holds → caller = other) ∧ ¬ r.dispatcher.Holds := by
  have guarded : Guarded False r := reached.invariant (Guarded False)
    (fun _ _ _ guarded _ stepped => guarded.step False.elim stepped) (guarded_new channels)
  have lock := guarded.caller caller holds
  constructor
  · intro otherHolds
    simpa [lock] using guarded.caller other otherHolds
  · intro dispatching
    simpa [lock] using guarded.dispatcher dispatching

/-- A `Post` that has taken the lock. -/
theorem locked_section_of_post : ∃ r : Reactor Nat Nat Unit, (r.calls 0).Holds ∧
    ((r.calls 1).Holds → 0 = 1) ∧ ¬ r.dispatcher.Holds := by
  obtain ⟨r, performed, holds⟩ : ∃ r : Reactor Nat Nat Unit, perform step (fun _ _ => true)
      (new fun _ => ⟨1, []⟩) [.start, .post 0 ⟨(), "newTx:pre"⟩, .advance 0] = some r ∧
      (r.calls 0).Holds := ⟨_, rfl, trivial⟩
  exact ⟨r, holds, locked_sections_exclusive _ (run_of_perform performed) 0 1 holds⟩

/-! ### Twelve posts -/

/-- The steps of a `Post` up to its `Unlock`. -/
def posting (caller : Nat) : List (Action Nat Nat Unit) :=
  .post caller ⟨(), "newTx:pre"⟩ :: List.replicate 5 (.advance caller)

/-- The dispatcher has received an event when ten more fill the channel, and the next `Post`
takes the lock before it. -/
def burst : List (Action Nat Nat Unit) :=
  .start :: posting 0 ++ .takeEvent :: (List.range 10).flatMap posting ++
    [.post 0 ⟨(), "newTx:pre"⟩, .advance 0, .advance 0]

/-- What a deadlock is about, with the call of one goroutine. -/
def view (r : Reactor Nat Nat Unit) :
    Option (Holder Nat) × Call Unit × Nat × Dispatcher Nat Nat Unit :=
  (r.lock, r.calls 0, r.eventChannel.length, r.dispatcher)

theorem reactor_deadlocks : ∃ r : Reactor Nat Nat Unit,
    Reaches (fun _ _ => true) (fun _ => ⟨1, []⟩) r ∧ r.Deadlocked := by
  have seen : (perform step (fun _ _ => true) (new fun _ => ⟨1, []⟩) burst).map view =
      some (some (.caller 0), .sending ⟨(), "newTx:pre"⟩, 10, .received ⟨(), "newTx:pre"⟩) := by
    decide +kernel
  obtain ⟨r, performed, viewed⟩ := Option.map_eq_some_iff.mp seen
  simp only [view, Prod.mk.injEq] at viewed
  obtain ⟨lock, calling, full, place⟩ := viewed
  exact ⟨r, run_of_perform performed, 0, _, _, lock, calling, full.ge, place⟩

/-- A `Post` whose event is on its way to a subscriber. -/
theorem reactor_never_deadlocks_once : ∃ r : Reactor Nat Nat Unit,
    Reaches unhurried (fun _ => ⟨1, []⟩) r ∧ ¬ r.Deadlocked := by
  obtain ⟨r, performed⟩ : ∃ r : Reactor Nat Nat Unit,
      perform step unhurried (new fun _ => ⟨1, []⟩)
        (.start :: posting 0 ++ [.takeEvent, .post 1 ⟨(), "newTx:pre"⟩, .advance 1, .advance 1]) =
          some r :=
    ⟨_, rfl⟩
  have reached : Reaches unhurried (fun _ => ⟨1, []⟩) r := run_of_perform performed
  exact ⟨r, reached, reactor_never_deadlocks _ reached⟩

end Reactor

end Thelonious.React
