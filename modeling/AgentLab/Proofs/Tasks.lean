import AgentLab.Calc.Session
/-!
The tasks of a calculator session. A request puts a task at the end of its worker's queue under a
fresh id; a round lets each scheduled worker take the task at the front of its queue and store its
outcome. This module says once what each primitive operation does to queues and outcomes, then
states the task invariant `Session.Tracks` against the log of the requests made so far and proves
that every primitive operation keeps it.
-/

namespace AgentLab.Calc

structure Ticket where
  op : Op
  a : Float
  b : Float

namespace Session

variable {s : Session} {o p : Op} {id : Nat} {t : Task} {rest : List Task}

def queuedIds (s : Session) (o : Op) : List Nat :=
  (s.queues o).map Task.id

def enqueue (s : Session) (o : Op) (a b : Float) : Session :=
  { s.setQueue o (s.queues o ++ [⟨s.outcomes.size, a, b⟩]) with
    outcomes := s.outcomes.push .pending }

theorem request_of_finds {a b : Float} (found : s.finds o = true) :
    request o a b s = .ok s.outcomes.size (s.enqueue o a b) := by
  simp [request, found, enqueue]

theorem request_of_not_finds {a b : Float} (missing : s.finds o = false) :
    request o a b s = .error .noWorker s := by
  simp [request, missing]

theorem setQueue_queues (q : List Task) :
    (s.setQueue o q).queues p = if p = o then q else s.queues p := rfl

@[simp] theorem enqueue_scheduled {a b : Float} : (s.enqueue o a b).scheduled = s.scheduled := rfl

@[simp] theorem enqueue_directory {a b : Float} : (s.enqueue o a b).directory = s.directory := rfl

@[simp] theorem enqueue_size {a b : Float} :
    (s.enqueue o a b).outcomes.size = s.outcomes.size + 1 := by
  simp [enqueue]

theorem enqueue_queues {a b : Float} :
    (s.enqueue o a b).queues p =
      if p = o then s.queues o ++ [⟨s.outcomes.size, a, b⟩] else s.queues p := rfl

theorem enqueue_outcome {a b : Float} :
    (s.enqueue o a b).outcome? id =
      if id = s.outcomes.size then some .pending else s.outcome? id := by
  simp [enqueue, outcome?, Array.getElem?_push]

/-! ## One worker -/

@[simp] theorem work_scheduled : (s.work o).scheduled = s.scheduled := by
  unfold work; split <;> rfl

@[simp] theorem work_directory : (s.work o).directory = s.directory := by
  unfold work; split <;> rfl

@[simp] theorem work_size : (s.work o).outcomes.size = s.outcomes.size := by
  unfold work; split <;> simp

theorem work_queues : (s.work o).queues p = if p = o then (s.queues o).tail else s.queues p := by
  unfold work
  split
  · rename_i empty
    by_cases same : p = o
    · simp [same, empty]
    · simp [same]
  · rename_i t rest front
    simp [setQueue_queues, front]

theorem work_queuedIds :
    (s.work o).queuedIds p = if p = o then (s.queuedIds o).tail else s.queuedIds p := by
  simp only [queuedIds, work_queues]
  split <;> simp

theorem work_outcome_of_ne (other : (s.queuedIds o).head? ≠ some id) :
    (s.work o).outcome? id = s.outcome? id := by
  unfold work
  split
  · rfl
  · rename_i t rest front
    have differs : t.id ≠ id := by
      intro same
      apply other
      simp [queuedIds, front, same]
    simp [outcome?, differs]

theorem work_outcome_front (front : s.queues o = t :: rest) (bound : t.id < s.outcomes.size) :
    (s.work o).outcome? t.id = some (.done (o.apply t.a t.b)) := by
  unfold work
  rw [front]
  simp [outcome?, bound]

/-! ## One round -/

theorem stepIn_cons (order : List Op) : s.stepIn (o :: order) = (s.work o).stepIn order := rfl

@[simp] theorem stepIn_scheduled (order : List Op) : (s.stepIn order).scheduled = s.scheduled := by
  induction order generalizing s with
  | nil => rfl
  | cons q order ih => rw [stepIn_cons, ih, work_scheduled]

@[simp] theorem stepIn_directory (order : List Op) : (s.stepIn order).directory = s.directory := by
  induction order generalizing s with
  | nil => rfl
  | cons q order ih => rw [stepIn_cons, ih, work_directory]

@[simp] theorem stepIn_size (order : List Op) :
    (s.stepIn order).outcomes.size = s.outcomes.size := by
  induction order generalizing s with
  | nil => rfl
  | cons q order ih => rw [stepIn_cons, ih, work_size]

theorem stepIn_queues {order : List Op} (nodup : order.Nodup) :
    (s.stepIn order).queues p = if p ∈ order then (s.queues p).tail else s.queues p := by
  induction order generalizing s with
  | nil => simp [stepIn]
  | cons q order ih =>
    have fresh : q ∉ order := (List.nodup_cons.mp nodup).1
    rw [stepIn_cons, ih (List.nodup_cons.mp nodup).2, work_queues]
    by_cases same : p = q
    · subst p
      simp [fresh]
    · simp [same]

theorem stepIn_outcome_of_ne {order : List Op} (nodup : order.Nodup)
    (other : ∀ q ∈ order, (s.queuedIds q).head? ≠ some id) :
    (s.stepIn order).outcome? id = s.outcome? id := by
  induction order generalizing s with
  | nil => rfl
  | cons q order ih =>
    have fresh : q ∉ order := (List.nodup_cons.mp nodup).1
    have later : ∀ r ∈ order, ((s.work q).queuedIds r).head? ≠ some id := by
      intro r member
      have differs : r ≠ q := fun same => fresh (same ▸ member)
      rw [work_queuedIds, if_neg differs]
      exact other r (List.mem_cons_of_mem q member)
    rw [stepIn_cons, ih (List.nodup_cons.mp nodup).2 later]
    exact work_outcome_of_ne (other q List.mem_cons_self)

theorem stepIn_outcome_front {order : List Op} (nodup : order.Nodup) (member : o ∈ order)
    (front : s.queues o = t :: rest) (bound : t.id < s.outcomes.size)
    (other : ∀ q ∈ order, q ≠ o → (s.queuedIds q).head? ≠ some t.id) :
    (s.stepIn order).outcome? t.id = some (.done (o.apply t.a t.b)) := by
  induction order generalizing s with
  | nil => cases member
  | cons q order ih =>
    have fresh : q ∉ order := (List.nodup_cons.mp nodup).1
    rw [stepIn_cons]
    by_cases same : q = o
    · subst q
      have later : ∀ r ∈ order, ((s.work o).queuedIds r).head? ≠ some t.id := by
        intro r inside
        have differs : r ≠ o := fun same => fresh (same ▸ inside)
        rw [work_queuedIds, if_neg differs]
        exact other r (List.mem_cons_of_mem o inside) differs
      rw [stepIn_outcome_of_ne (List.nodup_cons.mp nodup).2 later]
      exact work_outcome_front front bound
    · have inside : o ∈ order := (List.mem_cons.mp member).resolve_left (Ne.symm same)
      have kept : (s.work q).queues o = t :: rest := by
        rw [work_queues, if_neg (Ne.symm same), front]
      refine ih (List.nodup_cons.mp nodup).2 inside kept (by simpa using bound) ?_
      intro r present differs
      have unchanged : (s.work q).queuedIds r = s.queuedIds r := by
        rw [work_queuedIds, if_neg (fun (same : r = q) => fresh (same ▸ present))]
      rw [unchanged]
      exact other r (List.mem_cons_of_mem q present) differs

@[simp] theorem step_scheduled : s.step.scheduled = s.scheduled := stepIn_scheduled _

@[simp] theorem step_directory : s.step.directory = s.directory := stepIn_directory _

@[simp] theorem step_size : s.step.outcomes.size = s.outcomes.size := stepIn_size _

theorem step_queues (nodup : s.scheduled.Nodup) :
    s.step.queues p = if p ∈ s.scheduled then (s.queues p).tail else s.queues p :=
  stepIn_queues nodup

theorem step_queuedIds (nodup : s.scheduled.Nodup) :
    s.step.queuedIds p = if p ∈ s.scheduled then (s.queuedIds p).tail else s.queuedIds p := by
  simp only [queuedIds, step_queues nodup]
  split <;> simp

/-! ## The task invariant -/

/-- The task invariant, against the log of the requests made so far (the request of id `i` is
`log[i]`): one outcome for each request; a waiting task sits in the queue of the worker it was
requested from, with the operands it was requested with; each queue holds its tasks in request
order; an outcome is pending exactly while its task waits; a final outcome is what its worker
computes on its operands; and no worker is on the schedule twice. -/
structure Tracks (log : List Ticket) (s : Session) : Prop where
  size : s.outcomes.size = log.length
  queued : ∀ o, ∀ t ∈ s.queues o, log[t.id]? = some ⟨o, t.a, t.b⟩
  ordered : ∀ o, (s.queuedIds o).Pairwise (· < ·)
  pending : ∀ id, s.outcome? id = some .pending ↔ ∃ o, id ∈ s.queuedIds o
  final : ∀ id r, s.outcome? id = some (.done r) → ∃ k ∈ log[id]?, r = k.op.apply k.a k.b
  schedule : s.scheduled.Nodup

variable {log : List Ticket}

theorem Tracks.id_lt (tracks : s.Tracks log) (member : t ∈ s.queues o) :
    t.id < s.outcomes.size := by
  have found := tracks.queued o t member
  rw [tracks.size]
  exact (List.getElem?_eq_some_iff.mp found).1

theorem Tracks.mem_queuedIds (tracks : s.Tracks log) (member : id ∈ s.queuedIds o) :
    ∃ t ∈ s.queues o, t.id = id ∧ log[id]? = some ⟨o, t.a, t.b⟩ := by
  obtain ⟨t, inside, rfl⟩ := List.mem_map.mp member
  exact ⟨t, inside, rfl, tracks.queued o t inside⟩

theorem Tracks.same_queue (tracks : s.Tracks log) (first : id ∈ s.queuedIds o)
    (second : id ∈ s.queuedIds p) : o = p := by
  obtain ⟨t, -, -, logged⟩ := tracks.mem_queuedIds first
  obtain ⟨u, -, -, again⟩ := tracks.mem_queuedIds second
  rw [logged] at again
  exact congrArg Ticket.op (Option.some.inj again)

theorem Tracks.waits_once (tracks : s.Tracks log) (member : id ∈ s.queuedIds o) :
    (s.queuedIds o).count id = 1 ∧ ∀ p, id ∈ s.queuedIds p → p = o := by
  have nodup : (s.queuedIds o).Nodup := (tracks.ordered o).imp Nat.ne_of_lt
  refine ⟨by rw [nodup.count, if_pos member], fun p waiting => ?_⟩
  exact tracks.same_queue waiting member

theorem Tracks.not_mem_tail (tracks : s.Tracks log) (front : (s.queuedIds o).head? = some id) :
    id ∉ (s.queuedIds o).tail := by
  have ordered := tracks.ordered o
  cases ids : s.queuedIds o with
  | nil => simp [ids] at front
  | cons first later =>
    simp only [ids, List.head?_cons, Option.some.injEq] at front
    subst first
    rw [ids, List.pairwise_cons] at ordered
    exact fun member => Nat.lt_irrefl id (ordered.1 id member)

theorem queue_of_head? (front : (s.queuedIds o).head? = some id) :
    ∃ t rest, s.queues o = t :: rest ∧ t.id = id := by
  unfold queuedIds at front
  cases queue : s.queues o with
  | nil => simp [queue] at front
  | cons t rest =>
    rw [queue, List.map_cons, List.head?_cons, Option.some.injEq] at front
    exact ⟨t, rest, rfl, front⟩

private theorem mem_tail_of_head?_ne {l : List Nat} (other : l.head? ≠ some id) (member : id ∈ l) :
    id ∈ l.tail := by
  cases l with
  | nil => cases member
  | cons first later =>
    rcases List.mem_cons.mp member with same | inside
    · exact absurd (by rw [same]; rfl) other
    · exact inside

theorem Tracks.step_outcome_front (tracks : s.Tracks log) (member : o ∈ s.scheduled)
    (front : s.queues o = t :: rest) : s.step.outcome? t.id = some (.done (o.apply t.a t.b)) := by
  have queued : t ∈ s.queues o := by simp [front]
  have waiting : t.id ∈ s.queuedIds o := List.mem_map_of_mem queued
  refine stepIn_outcome_front tracks.schedule member front (tracks.id_lt queued) ?_
  intro q _ differs first
  exact differs (tracks.same_queue (List.mem_of_mem_head? first) waiting)

theorem step_outcome_of_ne (nodup : s.scheduled.Nodup)
    (other : ∀ q ∈ s.scheduled, (s.queuedIds q).head? ≠ some id) :
    s.step.outcome? id = s.outcome? id :=
  stepIn_outcome_of_ne nodup other

theorem Tracks.mem_step_queuedIds (tracks : s.Tracks log) :
    id ∈ s.step.queuedIds p ↔
      id ∈ s.queuedIds p ∧ ¬ (p ∈ s.scheduled ∧ (s.queuedIds p).head? = some id) := by
  rw [step_queuedIds tracks.schedule]
  split
  · rename_i member
    by_cases front : (s.queuedIds p).head? = some id
    · simp [front, member, tracks.not_mem_tail front]
    · constructor
      · intro inside
        exact ⟨List.mem_of_mem_tail inside, fun served => front served.2⟩
      · rintro ⟨inside, -⟩
        exact mem_tail_of_head?_ne front inside
  · rename_i unscheduled
    simp [unscheduled]

theorem Tracks.step (tracks : s.Tracks log) : s.step.Tracks log where
  size := by rw [step_size, tracks.size]
  queued := by
    intro p t member
    rw [step_queues tracks.schedule] at member
    split at member
    · exact tracks.queued p t (List.mem_of_mem_tail member)
    · exact tracks.queued p t member
  ordered := by
    intro p
    rw [step_queuedIds tracks.schedule]
    split
    · exact (tracks.ordered p).sublist (List.tail_sublist _)
    · exact tracks.ordered p
  pending := by
    intro id
    by_cases served : ∃ q ∈ s.scheduled, (s.queuedIds q).head? = some id
    · obtain ⟨q, member, front⟩ := served
      obtain ⟨t, rest, queue, rfl⟩ := queue_of_head? front
      rw [tracks.step_outcome_front member queue]
      simp only [Option.some.injEq, reduceCtorEq, false_iff, not_exists]
      intro p inside
      obtain ⟨waiting, fresh⟩ := tracks.mem_step_queuedIds.mp inside
      have same : p = q := tracks.same_queue waiting (by simp [queuedIds, queue])
      subst same
      exact fresh ⟨member, front⟩
    · have other : ∀ q ∈ s.scheduled, (s.queuedIds q).head? ≠ some id :=
        fun q member front => served ⟨q, member, front⟩
      rw [step_outcome_of_ne tracks.schedule other, tracks.pending]
      refine exists_congr fun p => ?_
      rw [tracks.mem_step_queuedIds]
      exact ⟨fun inside => ⟨inside, fun hit => other p hit.1 hit.2⟩, And.left⟩
  final := by
    intro id r done
    by_cases served : ∃ q ∈ s.scheduled, (s.queuedIds q).head? = some id
    · obtain ⟨q, member, front⟩ := served
      obtain ⟨t, rest, queue, rfl⟩ := queue_of_head? front
      rw [tracks.step_outcome_front member queue, Option.some.injEq, Outcome.done.injEq] at done
      exact ⟨⟨q, t.a, t.b⟩, tracks.queued q t (by simp [queue]), done.symm⟩
    · have other : ∀ q ∈ s.scheduled, (s.queuedIds q).head? ≠ some id :=
        fun q member front => served ⟨q, member, front⟩
      rw [step_outcome_of_ne tracks.schedule other] at done
      exact tracks.final id r done
  schedule := by simpa using tracks.schedule

def KeepsFinal (s s' : Session) : Prop :=
  ∀ id r, s.outcome? id = some (.done r) → s'.outcome? id = some (.done r)

theorem KeepsFinal.refl (s : Session) : KeepsFinal s s := fun _ _ done => done

theorem KeepsFinal.trans {s' s'' : Session} (first : KeepsFinal s s') (second : KeepsFinal s' s'') :
    KeepsFinal s s'' := fun id r done => second id r (first id r done)

theorem Tracks.keepsFinal_step (tracks : s.Tracks log) : KeepsFinal s s.step := by
  intro id r done
  have idle : ¬ ∃ o, id ∈ s.queuedIds o := by
    rw [← tracks.pending, done]
    simp
  have other : ∀ q ∈ s.scheduled, (s.queuedIds q).head? ≠ some id :=
    fun q _ front => idle ⟨q, List.mem_of_mem_head? front⟩
  rw [step_outcome_of_ne tracks.schedule other, done]

/-! ## Requests and changes of the schedule -/

theorem tracks_new : Session.new.Tracks [] where
  size := rfl
  queued := by
    intro o t member
    cases member
  ordered := by
    intro o
    exact List.Pairwise.nil
  pending := by
    intro id
    simp [outcome?, new, queuedIds]
  final := by
    intro id r done
    simp [outcome?, new] at done
  schedule := by decide

theorem Tracks.of_queues (tracks : s.Tracks log) {s' : Session} (queues : s'.queues = s.queues)
    (outcomes : s'.outcomes = s.outcomes) (schedule : s'.scheduled.Nodup) : s'.Tracks log := by
  have ids : s'.queuedIds = s.queuedIds := by
    funext q
    simp [queuedIds, queues]
  have found : s'.outcome? = s.outcome? := by
    funext id
    simp [outcome?, outcomes]
  exact ⟨outcomes ▸ tracks.size, queues ▸ tracks.queued, ids ▸ tracks.ordered,
    ids ▸ found ▸ tracks.pending, found ▸ tracks.final, schedule⟩

private theorem getElem?_append_of_eq_some {more : List Ticket} {k : Ticket}
    (found : log[id]? = some k) : (log ++ more)[id]? = some k := by
  rw [List.getElem?_append_left (List.getElem?_eq_some_iff.mp found).1, found]

theorem Tracks.enqueue (tracks : s.Tracks log) (a b : Float) :
    (s.enqueue o a b).Tracks (log ++ [⟨o, a, b⟩]) where
  size := by simp [tracks.size]
  queued := by
    intro p t member
    rw [enqueue_queues] at member
    split at member
    · rename_i same
      subst same
      rcases List.mem_append.mp member with old | new
      · exact getElem?_append_of_eq_some (tracks.queued p t old)
      · rw [List.mem_singleton] at new
        subst new
        simp [tracks.size]
    · exact getElem?_append_of_eq_some (tracks.queued p t member)
  ordered := by
    intro p
    simp only [queuedIds, enqueue_queues]
    split
    · rename_i same
      subst same
      rw [List.map_append, List.pairwise_append]
      refine ⟨tracks.ordered p, by simp, ?_⟩
      intro x old y new
      rw [List.map_cons, List.map_nil, List.mem_singleton] at new
      obtain ⟨t, queued, rfl⟩ := List.mem_map.mp old
      rw [new]
      exact tracks.id_lt queued
    · exact tracks.ordered p
  pending := by
    intro id
    rw [enqueue_outcome]
    split
    · rename_i fresh
      subst fresh
      simp only [true_iff]
      exact ⟨o, by simp [queuedIds, enqueue_queues]⟩
    · rename_i old
      rw [tracks.pending]
      refine exists_congr fun p => ?_
      simp only [queuedIds, enqueue_queues]
      split
      · rename_i same
        subst same
        simp [old]
      · rfl
  final := by
    intro id r done
    rw [enqueue_outcome] at done
    split at done
    · cases done
    · obtain ⟨k, found, value⟩ := tracks.final id r done
      exact ⟨k, getElem?_append_of_eq_some found, value⟩
  schedule := tracks.schedule

theorem keepsFinal_enqueue (a b : Float) : KeepsFinal s (s.enqueue o a b) := by
  intro id r done
  have bound : id < s.outcomes.size := (Array.getElem?_eq_some_iff.mp done).1
  rw [enqueue_outcome, if_neg (Nat.ne_of_lt bound), done]

theorem request_eq_ok {a b : Float} {s' : Session} (done : request o a b s = .ok id s') :
    s.finds o = true ∧ id = s.outcomes.size ∧ s' = s.enqueue o a b := by
  cases found : s.finds o
  · rw [request_of_not_finds found] at done
    cases done
  · rw [request_of_finds found] at done
    cases done
    exact ⟨rfl, rfl, rfl⟩

theorem request_eq_error {a b : Float} {e : SessionFault} {s' : Session}
    (failed : request o a b s = .error e s') : s' = s := by
  cases found : s.finds o
  · rw [request_of_not_finds found] at failed
    cases failed
    rfl
  · rw [request_of_finds found] at failed
    cases failed

def unschedule (s : Session) (o : Op) : Session :=
  { s with scheduled := s.scheduled.filter (· != o) }

theorem retire_eq_ok {u : Unit} {s' : Session} (done : retire o s = .ok u s') :
    o ∈ s.scheduled ∧ s' = s.unschedule o := by
  unfold retire at done
  split at done
  · rename_i member
    cases done
    exact ⟨List.contains_iff_mem.mp member, rfl⟩
  · cases done

theorem retire_eq_error {e : SessionFault} {s' : Session} (failed : retire o s = .error e s') :
    s' = s := by
  unfold retire at failed
  split at failed
  · cases failed
  · cases failed
    rfl

theorem Tracks.unschedule (tracks : s.Tracks log) : (s.unschedule o).Tracks log :=
  tracks.of_queues rfl rfl (tracks.schedule.filter _)

theorem Tracks.redirect (tracks : s.Tracks log) (d : Directory) :
    { s with directory := d }.Tracks log :=
  tracks.of_queues rfl rfl tracks.schedule

end Session

end AgentLab.Calc
