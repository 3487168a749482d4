import TokimoKvm.MacosSandbox

/-! # `vm_thread_main` and its callers

    The virtual machine belongs to one thread.  `Inner::stop` and
    `Inner::wait` send it commands, each with a channel for one reply, and
    take a channel that was dropped for `Ok`.  The thread answers a `Wait`
    when a stop has succeeded, or when it is shut down; it does not look
    whether its last stop succeeded.

    `Sandbox::wait` borrows the sandbox until it returns, and what would make
    it return needs the sandbox: `awaitVm_ends_iff` says that it does not. -/

namespace TokimoMacos

open TokimoMachine

/-! ## The source -/

/-- A command, with the number of its reply channel. -/
inductive Cmd where
  | stop (r : Nat)
  | wait (r : Nat)
  | shutdown
  deriving DecidableEq, Repr

/-- The reply channel that comes with a command. -/
def Cmd.reply : Cmd → Option Nat
  | .stop r => some r
  | .wait r => some r
  | .shutdown => none

/-- The thread, the channel to it and the virtual machine. -/
structure VmThread where
  /-- What was sent and not received yet. -/
  queue : List Cmd := []
  /-- There is an `Inner`, which holds the sender. -/
  senders : Bool := true
  /-- The thread runs, and holds the receiver. -/
  alive : Bool := true
  stopped : Bool := false
  waiters : List Nat := []
  /-- A stop request on the virtual machine has succeeded. -/
  halted : Bool := false
  /-- The number of the next reply channel. -/
  next : Nat := 0
  deriving DecidableEq, Repr

/-- What can be seen of the thread and of its callers. -/
inductive VmEvent where
  /-- The thread has received the `Stop` or the `Wait` of a reply channel. -/
  | received (r : Nat)
  /-- The thread has received a `Shutdown`. -/
  | shutdown
  /-- `request_stop_blocking`, and whether it was `Ok`. -/
  | requested (ok : Bool)
  /-- The thread has sent its reply, `Ok` or an error. -/
  | answered (r : Nat) (ok : Bool)
  /-- `Inner::stop` or `Inner::wait` returns. -/
  | returned (r : Nat) (ok : Bool)
  deriving DecidableEq, Repr

/-- Who takes the next step. -/
inductive VmLabel where
  /-- `Inner::stop` sends its `Stop`. -/
  | callStop
  /-- `Inner::wait` sends its `Wait`. -/
  | callWait
  /-- `Inner::stop` at its end, or `drop`. -/
  | sendShutdown
  /-- The thread receives a command; if it requests a stop, this is what comes
      of it. -/
  | recv (ok : Bool)
  /-- The sender is dropped. -/
  | hangup
  deriving DecidableEq, Repr

/-- A reply, and the caller that returns it. -/
def answer (ok : Bool) (r : Nat) : List VmEvent := [.answered r ok, .returned r ok]

/-- `unwrap_or_else(|_| Ok(()))`, for a reply channel that was dropped. -/
def lost (r : Nat) : List VmEvent := [.returned r true]

namespace VmThread

/-- A call sends its command; with the receiver gone it returns `Ok`. -/
def call (s : VmThread) (cmd : Nat → Cmd) : VmThread × List VmEvent :=
  if s.alive then ({ s with queue := s.queue ++ [cmd s.next], next := s.next + 1 }, [])
  else ({ s with next := s.next + 1 }, lost s.next)

/-- The `match` of `vm_thread_main`, with the queue behind the command. -/
def handle (s : VmThread) (ok : Bool) : Cmd → VmThread × List VmEvent
  | .stop r =>
      if s.stopped then (s, .received r :: answer true r)
      else if ok then
        ({ s with stopped := true, halted := true, waiters := [] },
          .received r :: .requested true :: s.waiters.flatMap (answer true) ++ answer true r)
      else (s, .received r :: .requested false :: answer false r)
  | .wait r =>
      if s.stopped then (s, .received r :: answer true r)
      else ({ s with waiters := s.waiters ++ [r] }, [.received r])
  | .shutdown =>
      -- the thread ends, and all that is still queued is dropped
      ({ s with
          queue := []
          alive := false
          waiters := []
          halted := s.halted || (!s.stopped && ok) },
        .shutdown :: (if s.stopped then [] else [.requested ok])
          ++ s.waiters.flatMap (answer true) ++ (s.queue.filterMap Cmd.reply).flatMap lost)

end VmThread

/-- The thread, the channel and the callers, one step at a time. -/
def vmStep (s : VmThread) : VmLabel → Option (VmThread × List VmEvent)
  | .callStop => if s.senders then some (s.call .stop) else none
  | .callWait => if s.senders then some (s.call .wait) else none
  | .sendShutdown =>
      if !s.senders then none
      else if s.alive then some ({ s with queue := s.queue ++ [.shutdown] }, [])
      else some (s, [])
  | .recv ok =>
      match s.alive, s.queue with
      | true, c :: queue => some ({ s with queue }.handle ok c)
      | _, _ => none
  | .hangup =>
      if s.senders && s.alive && s.queue.isEmpty then
        some ({ s with senders := false, alive := false, waiters := [] }, s.waiters.flatMap lost)
      else none

/-- The thread after a successful start, and its callers. -/
def vmMachine : Machine VmThread VmLabel VmEvent where
  step := vmStep

/-! ## What is said of it -/

/-- The event is an `Ok` for a caller. -/
def VmEvent.isOk : VmEvent → Bool
  | .answered _ ok => ok
  | .returned _ ok => ok
  | _ => false

/-- The machine was asked to stop. -/
def VmEvent.isRequest : VmEvent → Bool
  | .requested _ => true
  | _ => false

/-- A stop request has succeeded. -/
def VmEvent.halts (e : VmEvent) : Bool := e == .requested true

/-- The channel a reply was sent on. -/
def VmEvent.answered? : VmEvent → Option Nat
  | .answered r _ => some r
  | _ => none

/-- The number of replies to a command. -/
def replies (r : Nat) (tr : List VmEvent) : Nat := (tr.filterMap VmEvent.answered?).count r

/-- Each event is good where it stands: after a stop request that has
    succeeded, or before the first of them. -/
def watch (good : Bool → VmEvent → Bool) : Bool → List VmEvent → Bool
  | _, [] => true
  | halted, e :: es => good halted e && watch good (halted || e.halts) es

/-- Every `Ok` comes after a stop request that succeeded. -/
def okAfterStop : Bool → List VmEvent → Bool := watch fun halted e => !e.isOk || halted

/-- No stop is requested after one that succeeded. -/
def noStopAfterStop : Bool → List VmEvent → Bool := watch fun halted e => !e.isRequest || !halted

/-- At most one reply for each command, and exactly one for those that were
    received before a `Shutdown`. -/
def RepliedOnce (tr : List VmEvent) : Prop :=
  ∀ r, replies r tr ≤ 1 ∧ (.received r ∈ tr → .shutdown ∈ tr → replies r tr = 1)

/-- Nobody is told of a stop that has not succeeded: when the thread ends, or
    is gone, with no stop request having succeeded, there is no caller. -/
def Truthful (s : VmThread) : VmLabel → Prop
  | .callStop => s.alive = true ∨ s.halted = true
  | .callWait => s.alive = true ∨ s.halted = true
  | .sendShutdown => True
  | .recv ok =>
      s.queue.head? = some .shutdown → s.halted = true ∨ ok = true ∨
        (s.waiters = [] ∧ s.queue.filterMap Cmd.reply = [])
  | .hangup => s.halted = true ∨ s.waiters = []

instance (s : VmThread) (l : VmLabel) : Decidable (Truthful s l) :=
  match l with
  | .callStop => inferInstanceAs (Decidable (_ ∨ _))
  | .callWait => inferInstanceAs (Decidable (_ ∨ _))
  | .sendShutdown => isTrue trivial
  | .recv _ => inferInstanceAs (Decidable (_ → _))
  | .hangup => inferInstanceAs (Decidable (_ ∨ _))

/-- While the thread runs, `stopped` says whether the machine was stopped;
    afterwards nobody waits for it. -/
structure Sane (s : VmThread) : Prop where
  flag : s.alive = true → s.stopped = s.halted
  idle : s.alive = false → s.waiters = [] ∧ s.queue = []

/-! ## Watching -/

/-- A watch goes on where it was left. -/
theorem watch_append (good : Bool → VmEvent → Bool) (tr es : List VmEvent) (h : Bool) :
    watch good h (tr ++ es) = (watch good h tr && watch good (h || tr.any VmEvent.halts) es) := by
  induction tr generalizing h with
  | nil => simp [watch]
  | cons e tr ih => simp [watch, ih, Bool.and_assoc, Bool.or_assoc]

@[simp] theorem okAfterStop_nil (h : Bool) : okAfterStop h [] = true := rfl

@[simp] theorem okAfterStop_cons (h : Bool) (e : VmEvent) (es : List VmEvent) :
    okAfterStop h (e :: es) = ((!e.isOk || h) && okAfterStop (h || e.halts) es) := rfl

@[simp] theorem okAfterStop_append (h : Bool) (tr es : List VmEvent) :
    okAfterStop h (tr ++ es)
      = (okAfterStop h tr && okAfterStop (h || tr.any VmEvent.halts) es) :=
  watch_append _ tr es h

@[simp] theorem noStopAfterStop_nil (h : Bool) : noStopAfterStop h [] = true := rfl

@[simp] theorem noStopAfterStop_cons (h : Bool) (e : VmEvent) (es : List VmEvent) :
    noStopAfterStop h (e :: es)
      = ((!e.isRequest || !h) && noStopAfterStop (h || e.halts) es) := rfl

@[simp] theorem noStopAfterStop_append (h : Bool) (tr es : List VmEvent) :
    noStopAfterStop h (tr ++ es)
      = (noStopAfterStop h tr && noStopAfterStop (h || tr.any VmEvent.halts) es) :=
  watch_append _ tr es h

/-- Nothing changes under a watch while no stop succeeds. -/
theorem watch_quiet (good : Bool → VmEvent → Bool) {es : List VmEvent} (h : Bool)
    (hes : es.any VmEvent.halts = false) : watch good h es = es.all (good h) := by
  induction es with
  | nil => rfl
  | cons e es ih =>
      obtain ⟨he, hrest⟩ := Bool.or_eq_false_iff.mp hes
      rw [watch, he, Bool.or_false, ih hrest, List.all_cons]

@[simp] theorem halts_answers (ok : Bool) (ws : List Nat) :
    (ws.flatMap (answer ok)).any VmEvent.halts = false := by
  simp [List.any_flatMap, answer, VmEvent.halts]

@[simp] theorem halts_lost (ws : List Nat) : (ws.flatMap lost).any VmEvent.halts = false := by
  simp [List.any_flatMap, lost, VmEvent.halts]

/-- Waiters that are told `Ok` are told the truth, or there are none. -/
@[simp] theorem ok_answers (h : Bool) (ws : List Nat) :
    okAfterStop h (ws.flatMap (answer true)) = (ws.isEmpty || h) := by
  rw [okAfterStop, watch_quiet _ _ (halts_answers true ws)]
  cases ws with
  | nil => rfl
  | cons w ws =>
      cases h with
      | true => simp [answer]
      | false => simp [answer, VmEvent.isOk]

@[simp] theorem ok_lost (h : Bool) (ws : List Nat) :
    okAfterStop h (ws.flatMap lost) = (ws.isEmpty || h) := by
  rw [okAfterStop, watch_quiet _ _ (halts_lost ws)]
  cases ws with
  | nil => rfl
  | cons w ws =>
      cases h with
      | true => simp [lost]
      | false => simp [lost, VmEvent.isOk]

/-- No stop is requested by replies. -/
@[simp] theorem noStop_answers (h ok : Bool) (ws : List Nat) :
    noStopAfterStop h (ws.flatMap (answer ok)) = true := by
  rw [noStopAfterStop, watch_quiet _ _ (halts_answers ok ws), List.all_flatMap]
  simp [answer, VmEvent.isRequest]

@[simp] theorem noStop_lost (h : Bool) (ws : List Nat) :
    noStopAfterStop h (ws.flatMap lost) = true := by
  rw [noStopAfterStop, watch_quiet _ _ (halts_lost ws), List.all_flatMap]
  simp [lost, VmEvent.isRequest]

/-! ## One step -/

section

variable (s : VmThread) (ok : Bool) (r : Nat)

/-- A machine that has stopped is not asked again. -/
theorem handle_stop_stopped (hs : s.stopped = true) :
    s.handle ok (.stop r) = (s, .received r :: answer true r) := by
  rw [VmThread.handle, if_pos hs]

/-- One that stops answers everybody who waits. -/
theorem handle_stop_ok (hs : s.stopped = false) :
    s.handle true (.stop r) = ({ s with stopped := true, halted := true, waiters := [] },
      .received r :: .requested true :: s.waiters.flatMap (answer true) ++ answer true r) := by
  rw [VmThread.handle, hs]
  rfl

/-- One that does not answers the caller alone. -/
theorem handle_stop_failed (hs : s.stopped = false) :
    s.handle false (.stop r) = (s, .received r :: .requested false :: answer false r) := by
  rw [VmThread.handle, hs]
  rfl

end

/-- The last events of the thread: a failed stop, and callers that are told
    `Ok` all the same. -/
theorem failed_shutdown (ws ds : List Nat) :
    okAfterStop false (.shutdown :: [.requested false] ++ ws.flatMap (answer true)
        ++ ds.flatMap lost) = (ws.isEmpty && ds.isEmpty)
      ∧ (VmEvent.shutdown :: [.requested false] ++ ws.flatMap (answer true)
          ++ ds.flatMap lost).any VmEvent.halts = false := by
  have hany : (VmEvent.shutdown :: [.requested false] ++ ws.flatMap (answer true)).any
      VmEvent.halts = false := by
    rw [List.any_append, halts_answers]
    rfl
  constructor
  · rw [okAfterStop_append, hany, okAfterStop_append, Bool.or_self, ok_lost, Bool.or_false]
    show (true && okAfterStop false (ws.flatMap (answer true)) && ds.isEmpty) = _
    rw [ok_answers, Bool.or_false, Bool.true_and]
  · rw [List.any_append, hany, halts_lost]
    rfl

/-- What the thread does with a command, read off the events. -/
theorem handle_watched (s : VmThread) (ok : Bool) (c : Cmd) (hflag : s.stopped = s.halted) :
    (s.handle ok c).1.halted = (s.halted || (s.handle ok c).2.any VmEvent.halts)
      ∧ noStopAfterStop s.halted (s.handle ok c).2 = true
      ∧ (okAfterStop s.halted (s.handle ok c).2 = true
          ↔ (c = .shutdown → s.halted = true ∨ ok = true
              ∨ (s.waiters = [] ∧ s.queue.filterMap Cmd.reply = []))) := by
  -- by the command, then whether the machine has stopped before
  cases c with
  | stop r =>
      cases hs : s.stopped with
      | true =>
          have hh : s.halted = true := hflag ▸ hs
          rw [handle_stop_stopped s ok r hs]
          simp [hh, answer, VmEvent.isRequest]
      | false =>
          have hh : s.halted = false := hflag ▸ hs
          cases ok with
          | true =>
              rw [handle_stop_ok s r hs]
              simp [hh, answer, VmEvent.isRequest, VmEvent.isOk, VmEvent.halts]
          | false =>
              rw [handle_stop_failed s r hs]
              simp [hh, answer, VmEvent.isRequest, VmEvent.isOk, VmEvent.halts]
  | wait r =>
      rw [VmThread.handle]
      cases hs : s.stopped with
      | true =>
          have hh : s.halted = true := hflag ▸ hs
          simp [hh, answer, VmEvent.isRequest]
      | false =>
          have hh : s.halted = false := hflag ▸ hs
          simp [hh, VmEvent.isRequest, VmEvent.isOk, VmEvent.halts]
  | shutdown =>
      rw [VmThread.handle]
      cases hs : s.stopped with
      | true =>
          have hh : s.halted = true := hflag ▸ hs
          simp [hh, VmEvent.isRequest]
      | false =>
          have hh : s.halted = false := hflag ▸ hs
          cases ok with
          | true => simp [hh, VmEvent.isRequest, VmEvent.isOk, VmEvent.halts]
          | false =>
              obtain ⟨hok, hany⟩ := failed_shutdown s.waiters (s.queue.filterMap Cmd.reply)
              simp only [hh, hok, hany, Bool.false_eq_true, if_false]
              refine ⟨rfl, ?_, ?_⟩
              · simp [VmEvent.isRequest, VmEvent.halts]
              · rw [Bool.and_eq_true, List.isEmpty_iff, List.isEmpty_iff]
                simp

/-- What a step can be. -/
inductive Steps (s : VmThread) : VmLabel → VmThread → List VmEvent → Prop where
  | stop : Steps s .callStop (s.call .stop).1 (s.call .stop).2
  | wait : Steps s .callWait (s.call .wait).1 (s.call .wait).2
  | shut : s.alive = true →
      Steps s .sendShutdown { s with queue := s.queue ++ [.shutdown] } []
  | late : s.alive = false → Steps s .sendShutdown s []
  | recv (ok : Bool) {c : Cmd} {queue : List Cmd} : s.alive = true → s.queue = c :: queue →
      Steps s (.recv ok) ({ s with queue }.handle ok c).1 ({ s with queue }.handle ok c).2
  | hangup : s.alive = true → s.queue = [] →
      Steps s .hangup { s with senders := false, alive := false, waiters := [] }
        (s.waiters.flatMap lost)

/-- The cases of a step, guards included. -/
theorem vmStep_steps {s s' : VmThread} {l : VmLabel} {es : List VmEvent}
    (h : vmStep s l = some (s', es)) : Steps s l s' es := by
  cases l with
  | callStop =>
      rw [vmStep] at h
      split at h
      · obtain ⟨rfl, rfl⟩ := Prod.mk.inj (Option.some.inj h)
        exact .stop
      · cases h
  | callWait =>
      rw [vmStep] at h
      split at h
      · obtain ⟨rfl, rfl⟩ := Prod.mk.inj (Option.some.inj h)
        exact .wait
      · cases h
  | sendShutdown =>
      rw [vmStep] at h
      split at h
      · cases h
      · split at h
        · obtain ⟨rfl, rfl⟩ := Prod.mk.inj (Option.some.inj h)
          exact .shut ‹_›
        · obtain ⟨rfl, rfl⟩ := Prod.mk.inj (Option.some.inj h)
          exact .late (Bool.eq_false_iff.mpr ‹_›)
  | recv ok =>
      rw [vmStep] at h
      split at h
      · next c queue ha hq =>
        obtain ⟨rfl, rfl⟩ := Prod.mk.inj (Option.some.inj h)
        exact .recv ok ha hq
      · cases h
  | hangup =>
      rw [vmStep] at h
      split at h
      · next hall =>
        obtain ⟨rfl, rfl⟩ := Prod.mk.inj (Option.some.inj h)
        simp only [Bool.and_eq_true, List.isEmpty_iff] at hall
        exact .hangup hall.1.2 hall.2
      · cases h

/-- A step of the machine, watched. -/
theorem step_watched {s s' : VmThread} {l : VmLabel} {es : List VmEvent} (hs : Sane s)
    (h : Steps s l s' es) :
    s'.halted = (s.halted || es.any VmEvent.halts)
      ∧ noStopAfterStop s.halted es = true
      ∧ (okAfterStop s.halted es = true ↔ Truthful s l) := by
  have hcall : ∀ cmd, (s.call cmd).1.halted = (s.halted || (s.call cmd).2.any VmEvent.halts)
      ∧ noStopAfterStop s.halted (s.call cmd).2 = true
      ∧ (okAfterStop s.halted (s.call cmd).2 = true ↔ (s.alive = true ∨ s.halted = true)) := by
    intro cmd
    rw [VmThread.call]
    cases ha : s.alive with
    | true => simp
    | false => simp [lost, VmEvent.isOk, VmEvent.isRequest, VmEvent.halts]
  cases h with
  | stop => exact hcall .stop
  | wait => exact hcall .wait
  | shut => simp [Truthful]
  | late => simp [Truthful]
  | recv ok ha hq =>
      rename_i c queue
      have h := handle_watched { s with queue } ok c (hs.flag ha)
      refine ⟨h.1, h.2.1, h.2.2.trans ?_⟩
      rw [Truthful, hq, List.head?_cons, Option.some_inj]
      cases c with
      | stop r => exact ⟨fun _ hc => (nomatch hc), fun _ hc => (nomatch hc)⟩
      | wait r => exact ⟨fun _ hc => (nomatch hc), fun _ hc => (nomatch hc)⟩
      | shutdown => exact Iff.rfl
  | hangup ha hq =>
      have hany := halts_lost s.waiters
      rw [ok_lost, hany, Truthful, Bool.or_eq_true, List.isEmpty_iff]
      exact ⟨(Bool.or_false _).symm, noStop_lost _ _, or_comm⟩

/-- A command leaves the flag and the machine in agreement. -/
theorem handle_sane {s : VmThread} (ok : Bool) (c : Cmd) (ha : s.alive = true)
    (hflag : s.stopped = s.halted) : Sane (s.handle ok c).1 := by
  have hsame : ∀ ws : List Nat, Sane { s with waiters := ws } := fun ws =>
    ⟨fun _ => hflag, fun hf => nomatch ha.symm.trans hf⟩
  cases c with
  | stop r =>
      rw [VmThread.handle]
      split
      · exact hsame s.waiters
      · split
        · exact ⟨fun _ => rfl, fun hf => nomatch ha.symm.trans hf⟩
        · exact hsame s.waiters
  | wait r =>
      rw [VmThread.handle]
      split
      · exact hsame s.waiters
      · exact hsame _
  | shutdown => exact ⟨fun hf => (nomatch hf), fun _ => ⟨rfl, rfl⟩⟩

/-- So does every step. -/
theorem step_sane {s s' : VmThread} {l : VmLabel} {es : List VmEvent} (hs : Sane s)
    (h : Steps s l s' es) : Sane s' := by
  have hcall : ∀ cmd, Sane (s.call cmd).1 := by
    intro cmd
    rw [VmThread.call]
    split
    · next ha => exact ⟨hs.flag, fun hf => nomatch ha.symm.trans hf⟩
    · exact ⟨hs.flag, hs.idle⟩
  cases h with
  | stop => exact hcall .stop
  | wait => exact hcall .wait
  | shut ha => exact ⟨hs.flag, fun hf => nomatch ha.symm.trans hf⟩
  | late => exact hs
  | recv ok ha hq => exact handle_sane ok _ ha (hs.flag ha)
  | hangup ha hq => exact ⟨fun hf => (nomatch hf), fun _ => ⟨rfl, hq⟩⟩

/-! ## Replies -/

@[simp] theorem replies_nil (r : Nat) : replies r [] = 0 := rfl

@[simp] theorem replies_append (r : Nat) (tr es : List VmEvent) :
    replies r (tr ++ es) = replies r tr + replies r es := by
  rw [replies, List.filterMap_append, List.count_append]
  rfl

@[simp] theorem replies_answer (r q : Nat) (ok : Bool) :
    replies r (answer ok q) = [q].count r := rfl

@[simp] theorem replies_answers (r : Nat) (ok : Bool) (ws : List Nat) :
    replies r (ws.flatMap (answer ok)) = ws.count r := by
  induction ws with
  | nil => rfl
  | cons w ws ih =>
      rw [List.flatMap_cons, replies_append, replies_answer, ih, ← List.count_append]
      rfl

@[simp] theorem replies_lost (r : Nat) (ws : List Nat) : replies r (ws.flatMap lost) = 0 := by
  induction ws with
  | nil => rfl
  | cons w ws ih =>
      rw [List.flatMap_cons, replies_append, ih]
      rfl

/-- Nothing is received with a reply. -/
theorem not_received_answers {r : Nat} {ok : Bool} {ws : List Nat} :
    .received r ∉ ws.flatMap (answer ok) ∧ .shutdown ∉ ws.flatMap (answer ok) := by
  simp [answer]

/-- Channels that are dropped have not been received. -/
theorem not_received_lost {r : Nat} {ws : List Nat} :
    .received r ∉ ws.flatMap lost ∧ .shutdown ∉ ws.flatMap lost := by
  simp [lost]

/-- A command that is no `Shutdown` is answered, or its caller waits. -/
theorem handle_replies (s : VmThread) (ok : Bool) {c : Cmd} {q : Nat} (hc : c.reply = some q) :
    (s.handle ok c).1.queue = s.queue ∧ (s.handle ok c).1.alive = s.alive
      ∧ (s.handle ok c).1.next = s.next ∧ .shutdown ∉ (s.handle ok c).2
      ∧ (∀ r, .received r ∈ (s.handle ok c).2 → r = q)
      ∧ ∀ r, (s.handle ok c).1.waiters.count r + replies r (s.handle ok c).2
          = s.waiters.count r + [q].count r := by
  have hrec : ∀ r es, replies r (.received q :: es) = replies r es := fun _ _ => rfl
  have hreq : ∀ r ok es, replies r (.requested ok :: es) = replies r es := fun _ _ _ => rfl
  cases c with
  | stop r =>
      obtain rfl := Option.some.inj hc
      cases hst : s.stopped with
      | true =>
          rw [handle_stop_stopped s ok r hst]
          refine ⟨rfl, rfl, rfl, by simp [answer], by simp [answer], fun r' => ?_⟩
          rw [hrec, replies_answer]
      | false =>
          cases ok with
          | true =>
              rw [handle_stop_ok s r hst]
              refine ⟨rfl, rfl, rfl, by simp [answer], by simp [answer], fun r' => ?_⟩
              rw [List.cons_append, List.cons_append, hrec, hreq, replies_append,
                replies_answers, replies_answer, List.count_nil, Nat.zero_add]
          | false =>
              rw [handle_stop_failed s r hst]
              refine ⟨rfl, rfl, rfl, by simp [answer], by simp [answer], fun r' => ?_⟩
              rw [hrec, hreq, replies_answer]
  | wait r =>
      obtain rfl := Option.some.inj hc
      rw [VmThread.handle]
      split
      · refine ⟨rfl, rfl, rfl, by simp [answer], by simp [answer], fun r' => ?_⟩
        rw [hrec, replies_answer]
      · refine ⟨rfl, rfl, rfl, by simp, by simp, fun r' => ?_⟩
        rw [hrec, replies_nil, Nat.add_zero, List.count_append]
  | shutdown => cases hc

/-- A `Shutdown` answers everybody who waits. -/
theorem shutdown_replies (s : VmThread) (ok : Bool) (r : Nat) :
    replies r (s.handle ok .shutdown).2 = s.waiters.count r
      ∧ .received r ∉ (s.handle ok .shutdown).2 := by
  have hshut : ∀ es, replies r (.shutdown :: es) = replies r es := fun _ => rfl
  have hreq : replies r (if s.stopped then [] else [.requested ok]) = 0 := by
    split <;> rfl
  rw [VmThread.handle]
  constructor
  · show replies r (.shutdown :: _ ++ _ ++ _) = _
    rw [List.cons_append, List.cons_append, hshut, replies_append, replies_append, hreq,
      replies_answers, replies_lost, Nat.zero_add, Nat.add_zero]
  · simp only [List.mem_append, List.mem_cons]
    rintro (((h | h) | h) | h)
    · cases h
    · split at h
      · cases h
      · cases List.mem_singleton.mp h
    · exact not_received_answers.1 h
    · exact not_received_lost.1 h

/-- Where the replies to a command may still come from, and what has been
    received. -/
structure Accounted (s : VmThread) (tr : List VmEvent) : Prop where
  once : ∀ r, (s.queue.filterMap Cmd.reply).count r + s.waiters.count r + replies r tr ≤ 1
  fresh : ∀ r, s.next ≤ r →
    (s.queue.filterMap Cmd.reply).count r + s.waiters.count r + replies r tr = 0
  running : s.alive = true → .shutdown ∉ tr
  owed : s.alive = true → ∀ r, .received r ∈ tr → 1 ≤ s.waiters.count r + replies r tr
  paid : .shutdown ∈ tr → ∀ r, .received r ∈ tr → 1 ≤ replies r tr

/-- A call that sends its command, or is too late. -/
theorem call_accounted {s : VmThread} {tr : List VmEvent} (ha : Accounted s tr)
    {cmd : Nat → Cmd} (hcmd : ∀ r, (cmd r).reply = some r) :
    Accounted (s.call cmd).1 (tr ++ (s.call cmd).2) := by
  rw [VmThread.call]
  split
  · rw [List.append_nil]
    have hq : ∀ r, ((s.queue ++ [cmd s.next]).filterMap Cmd.reply).count r
        = (s.queue.filterMap Cmd.reply).count r + [s.next].count r := by
      intro r
      rw [List.filterMap_append, List.count_append, List.filterMap_cons_some (hcmd s.next)]
      rfl
    refine ⟨fun r => ?_, fun r hr => ?_, ha.running, ha.owed, ha.paid⟩
    · have h1 := ha.once r
      have h2 := ha.fresh r
      have hone : [s.next].count r ≤ 1 := List.count_le_length
      rw [hq]
      by_cases hr : s.next = r
      · have := h2 (Nat.le_of_eq hr)
        show _ + s.waiters.count r + _ ≤ 1
        omega
      · have : [s.next].count r = 0 := by simp [hr]
        show _ + s.waiters.count r + _ ≤ 1
        omega
    · have hr' : s.next + 1 ≤ r := hr
      have h2 := ha.fresh r (by omega)
      have : [s.next].count r = 0 := by
        rw [List.count_eq_zero]
        simp
        omega
      rw [hq]
      show _ + s.waiters.count r + _ = 0
      omega
  · next halive =>
    have hgone := Bool.eq_false_iff.mpr halive
    have hzero : ∀ r, replies r (lost s.next) = 0 := fun _ => rfl
    refine ⟨fun r => ?_, fun r hr => ?_, fun h => absurd h halive, fun h => absurd h halive, ?_⟩
    · rw [replies_append, hzero]
      exact ha.once r
    · rw [replies_append, hzero]
      exact ha.fresh r (Nat.le_of_succ_le hr)
    · intro hshut r hrec
      rw [replies_append]
      have hshut' : .shutdown ∈ tr := by simpa [lost] using hshut
      have hrec' : .received r ∈ tr := by simpa [lost] using hrec
      exact Nat.le_add_right_of_le (ha.paid hshut' r hrec')

/-- **ONE STEP KEEPS ACCOUNT** of every command. -/
theorem step_accounted {s s' : VmThread} {l : VmLabel} {tr es : List VmEvent}
    (ha : Accounted s tr) (h : Steps s l s' es) : Accounted s' (tr ++ es) := by
  cases h with
  | stop => exact call_accounted ha fun _ => rfl
  | wait => exact call_accounted ha fun _ => rfl
  | shut halive =>
      rw [List.append_nil]
      have hq : (s.queue ++ [Cmd.shutdown]).filterMap Cmd.reply
          = s.queue.filterMap Cmd.reply := by
        rw [List.filterMap_append]
        exact List.append_nil _
      refine ⟨fun r => ?_, fun r hr => ?_, ha.running, ha.owed, ha.paid⟩
      · rw [hq]
        exact ha.once r
      · rw [hq]
        exact ha.fresh r hr
  | late =>
      rw [List.append_nil]
      exact ha
  | recv ok halive hq =>
      rename_i c queue
      have honce := ha.once
      have hfresh := ha.fresh
      rw [hq] at honce hfresh
      cases hc : c.reply with
      | some q =>
          obtain ⟨hqueue, hlive, hnext, hshut, honly, hcount⟩ :=
            handle_replies { s with queue } ok hc
          rw [List.filterMap_cons_some hc] at honce hfresh
          have hsplit : ∀ r, (q :: queue.filterMap Cmd.reply).count r
              = [q].count r + (queue.filterMap Cmd.reply).count r := by
            intro r
            rw [← List.singleton_append, List.count_append]
          refine ⟨fun r => ?_, fun r hr => ?_, fun _ => ?_, fun _ r hrec => ?_, fun h => ?_⟩
          · have h1 := honce r
            have h2 := hcount r
            rw [hsplit] at h1
            rw [hqueue, replies_append]
            show (queue.filterMap Cmd.reply).count r + _ + _ ≤ 1
            have h3 : ({ s with queue } : VmThread).waiters = s.waiters := rfl
            rw [h3] at h2
            omega
          · have h1 := hfresh r (hnext ▸ hr)
            have h2 := hcount r
            rw [hsplit] at h1
            rw [hqueue, replies_append]
            show (queue.filterMap Cmd.reply).count r + _ + _ = 0
            have h3 : ({ s with queue } : VmThread).waiters = s.waiters := rfl
            rw [h3] at h2
            omega
          · rw [List.mem_append]
            exact fun h => h.elim (ha.running halive) hshut
          · have h2 := hcount r
            have h3 : ({ s with queue } : VmThread).waiters = s.waiters := rfl
            rw [h3] at h2
            rw [replies_append]
            rcases List.mem_append.mp hrec with hrec | hrec
            · have := ha.owed halive r hrec
              omega
            · have : [q].count r = 1 := by rw [honly r hrec]; exact List.count_singleton_self
              omega
          · exact absurd h fun h => (List.mem_append.mp h).elim (ha.running halive) hshut
      | none =>
          obtain rfl : c = .shutdown := by
            cases c with
            | shutdown => rfl
            | stop r => cases hc
            | wait r => cases hc
          -- everybody who was owed a reply gets it now
          have hanswers := fun r => (shutdown_replies { s with queue } ok r).1
          have hnone := fun r => (shutdown_replies { s with queue } ok r).2
          have hwait : ({ s with queue } : VmThread).waiters = s.waiters := rfl
          rw [hwait] at hanswers
          refine ⟨fun r => ?_, fun r hr => ?_, fun h => (nomatch h), fun h => (nomatch h),
            fun _ r hrec => ?_⟩
          · have h1 := honce r
            rw [replies_append, hanswers]
            show 0 + 0 + (replies r tr + s.waiters.count r) ≤ 1
            omega
          · have h1 := hfresh r hr
            rw [replies_append, hanswers]
            show 0 + 0 + (replies r tr + s.waiters.count r) = 0
            omega
          · rw [replies_append, hanswers]
            have hold := (List.mem_append.mp hrec).resolve_right (hnone r)
            have := ha.owed halive r hold
            omega
  | hangup halive hq =>
      refine ⟨fun r => ?_, fun r hr => ?_, fun h => (nomatch h), fun h => (nomatch h), ?_⟩
      · have := ha.once r
        rw [replies_append, replies_lost]
        show (s.queue.filterMap Cmd.reply).count r + 0 + (replies r tr + 0) ≤ 1
        omega
      · have := ha.fresh r hr
        rw [replies_append, replies_lost]
        show (s.queue.filterMap Cmd.reply).count r + 0 + (replies r tr + 0) = 0
        omega
      · intro hshut
        rcases List.mem_append.mp hshut with hshut | hshut
        · exact absurd hshut (ha.running halive)
        · exact absurd hshut (not_received_lost (r := 0)).2

/-! ## Runs -/

/-- The thread starts with a machine that runs. -/
theorem start_sane : Sane {} := ⟨fun _ => rfl, fun h => nomatch h⟩

/-- No channel has been used yet. -/
theorem start_accounted : Accounted {} [] where
  once _ := Nat.zero_le 1
  fresh _ _ := rfl
  running _ h := nomatch h
  owed _ _ h := nomatch h
  paid h := nomatch h

/-- What a run from any sane state shows is watched step by step. -/
theorem exec_watched (ls : List VmLabel) : ∀ {s s' : VmThread} {tr : List VmEvent}, Sane s →
    vmMachine.exec s ls = some (s', tr) →
    noStopAfterStop s.halted tr = true
      ∧ (okAfterStop s.halted tr = true ↔ vmMachine.Along Truthful s ls) := by
  induction ls with
  | nil =>
      intro s s' tr _ h
      obtain ⟨rfl, rfl⟩ := Prod.mk.inj (Option.some.inj h)
      exact ⟨rfl, iff_of_true rfl trivial⟩
  | cons l ls ih =>
      intro s s' tr hs h
      rw [Machine.exec] at h
      cases hstep : vmMachine.step s l with
      | none => rw [hstep] at h; cases h
      | some y =>
          obtain ⟨s₁, es⟩ := y
          rw [hstep] at h
          cases hrest : vmMachine.exec s₁ ls with
          | none => simp only [hrest] at h; cases h
          | some z =>
              obtain ⟨s₂, es'⟩ := z
              simp only [hrest] at h
              obtain ⟨rfl, rfl⟩ := Prod.mk.inj (Option.some.inj h)
              have hsteps := vmStep_steps hstep
              obtain ⟨hhalt, hno, hok⟩ := step_watched hs hsteps
              obtain ⟨hno', hok'⟩ := ih (step_sane hs hsteps) hrest
              rw [hhalt] at hno' hok'
              constructor
              · rw [noStopAfterStop_append, hno, hno']
                rfl
              · rw [okAfterStop_append, Bool.and_eq_true, hok, hok', Machine.Along, hstep]

/-- **THE THREAD AND ITS CALLERS**.  In every run each command gets at most one
    reply, exactly one if a `Shutdown` follows it, and no stop is requested
    after one that succeeded.  Every `Ok` comes after a stop that succeeded if
    and only if nobody waits, is queued or calls when the thread has ended
    without one. -/
theorem vm_replies {ls : List VmLabel} {s : VmThread} {tr : List VmEvent}
    (h : vmMachine.exec {} ls = some (s, tr)) :
    RepliedOnce tr ∧ noStopAfterStop false tr = true
      ∧ (okAfterStop false tr = true ↔ vmMachine.Along Truthful {} ls) := by
  constructor
  · have hinv : Accounted s tr := by
      refine Run.invariant (I := Accounted) start_accounted ?_ (run_of_exec_always h)
      intro s tr l s' es ha _ h
      exact step_accounted ha (vmStep_steps h)
    intro r
    have honce := hinv.once r
    have hle : replies r tr ≤ 1 := by omega
    exact ⟨hle, fun hrec hshut => Nat.le_antisymm hle (hinv.paid hshut r hrec)⟩
  · exact exec_watched ls start_sane h

/-! ## A wait for a machine that runs -/

/-- What can happen while a `wait` has borrowed the sandbox: its own command,
    and the thread.  A `stop`, a `drop` and the end of the sender all need the
    sandbox. -/
def VmLabel.duringWait : VmLabel → Prop
  | .callWait => True
  | .recv _ => True
  | _ => False

/-- The machine runs, and nothing but `Wait`s is on the way. -/
structure Unanswered (s : VmThread) : Prop where
  alive : s.alive = true
  runs : s.stopped = false
  waits : ∀ c ∈ s.queue, ∃ r, c = .wait r

/-- Nobody waits yet. -/
theorem start_unanswered : Unanswered {} where
  alive := rfl
  runs := rfl
  waits _ h := nomatch h

/-- While somebody waits, no step answers. -/
theorem step_unanswered {s s' : VmThread} {l : VmLabel} {es : List VmEvent}
    (hs : Unanswered s) (hl : l.duringWait) (h : Steps s l s' es) :
    Unanswered s' ∧ ∀ r ok, .returned r ok ∉ es := by
  cases h with
  | stop => exact hl.elim
  | shut ha => exact hl.elim
  | late ha => exact hl.elim
  | hangup ha hq => exact hl.elim
  | wait =>
      rw [VmThread.call, if_pos hs.alive]
      refine ⟨⟨hs.alive, hs.runs, fun c hc => ?_⟩, fun _ _ hm => by cases hm⟩
      rcases List.mem_append.mp hc with hc | hc
      · exact hs.waits c hc
      · exact ⟨_, List.mem_singleton.mp hc⟩
  | recv ok ha hq =>
      rename_i c queue
      obtain ⟨r, rfl⟩ := hs.waits c (by rw [hq]; exact List.mem_cons_self ..)
      have hhandle : ({ s with queue } : VmThread).handle ok (.wait r)
          = ({ s with queue := queue, waiters := s.waiters ++ [r] }, [.received r]) :=
        if_neg (by rw [hs.runs]; decide)
      rw [hhandle]
      refine ⟨⟨hs.alive, hs.runs, fun c hc => hs.waits c ?_⟩, fun _ _ hm => ?_⟩
      · rw [hq]
        exact List.mem_cons_of_mem _ hc
      · cases List.mem_singleton.mp hm

/-- **A WAIT IS NOT ANSWERED** while the machine runs and the sandbox is
    borrowed. -/
theorem wait_unanswered {s₀ s : VmThread} {tr : List VmEvent} (h₀ : Unanswered s₀)
    (hr : Run vmMachine (fun _ l => l.duringWait) s₀ s tr) :
    Unanswered s ∧ ∀ r ok, .returned r ok ∉ tr := by
  refine Run.invariant (I := fun s tr => Unanswered s ∧ ∀ r ok, .returned r ok ∉ tr)
    ⟨h₀, fun _ _ hm => nomatch hm⟩ ?_ hr
  intro s tr l s' es hold hl h
  obtain ⟨hnext, hes⟩ := step_unanswered hold.1 hl (vmStep_steps h)
  refine ⟨hnext, fun r ok hm => ?_⟩
  rcases List.mem_append.mp hm with hm | hm
  · exact hold.2 r ok hm
  · exact hes r ok hm

/-- The step of the sandbox's `wait` ends just where the thread can let it
    return. -/
theorem awaitVm_ends_iff : ends .awaitVm = true
    ↔ ∃ s tr r ok, Run vmMachine (fun _ l => l.duringWait) {} s tr ∧ .returned r ok ∈ tr := by
  constructor
  · intro h
    cases h
  · rintro ⟨s, tr, r, ok, hr, hm⟩
    exact absurd hm ((wait_unanswered start_unanswered hr).2 r ok)

/-- A `Wait`, a `Stop` that fails, another that succeeds, and the end. -/
def retriedStop : List VmLabel :=
  [.callWait, .callStop, .recv true, .recv false, .callStop, .recv true, .sendShutdown,
    .recv false]

/-- There the caller of the `Wait` is told the truth. -/
theorem retried_stop_replies :
    ∃ s tr, vmMachine.exec {} retriedStop = some (s, tr)
      ∧ .returned 0 true ∈ tr ∧ okAfterStop false tr = true := by
  have hrun : ∃ s tr, vmMachine.exec {} retriedStop = some (s, tr) ∧ .returned 0 true ∈ tr := by
    refine ⟨_, _, rfl, ?_⟩
    decide
  obtain ⟨s, tr, hexec, hret⟩ := hrun
  refine ⟨s, tr, hexec, hret, (vm_replies hexec).2.2.mpr ?_⟩
  decide

/-- **AN `OK` WITHOUT A STOP**: the stop of a `Shutdown` fails, and the `Wait`
    before it is answered with `Ok`. -/
theorem failed_shutdown_is_ok :
    (vmMachine.exec {} [.callWait, .sendShutdown, .recv true, .recv false]).map Prod.snd
        = some [.received 0, .shutdown, .requested false, .answered 0 true, .returned 0 true]
      ∧ okAfterStop false
        [.received 0, .shutdown, .requested false, .answered 0 true, .returned 0 true] = false := by
  decide

end TokimoMacos
