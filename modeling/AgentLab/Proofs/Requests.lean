import AgentLab.Proofs.Evaluation
/-!
Looking up workers and taking requests. The directory of a session has four shapes: a roster
searched in order, a table keyed by operator, a query that fails on a missing worker, and a hidden
one. The first three find exactly the scheduled workers, so they agree on every schedule; the
hidden one finds none. A request by symbol is therefore taken exactly when the symbol names an
operator, the directory is not hidden and the operator's worker is scheduled, and both refusals
come before anything is queued or stored.
-/

namespace AgentLab.Calc

namespace Op

theorem ofSymbol?_eq_some_iff {symbol : String} {o : Op} :
    ofSymbol? symbol = some o ↔ o.symbol = symbol :=
  ⟨Token.ofSymbol?_eq_some, fun spelled => spelled ▸ ofSymbol?_symbol o⟩

theorem mem_symbols_iff {symbol : String} :
    symbol ∈ ["+", "-", "*", "/", "^"] ↔ ∃ o : Op, o.symbol = symbol := by
  constructor
  · intro member
    simp only [List.mem_cons, List.not_mem_nil, or_false] at member
    rcases member with rfl | rfl | rfl | rfl | rfl
    exacts [⟨add, rfl⟩, ⟨sub, rfl⟩, ⟨mul, rfl⟩, ⟨div, rfl⟩, ⟨pow, rfl⟩]
  · rintro ⟨o, rfl⟩
    cases o <;> simp [symbol]

theorem isSome_ofSymbol?_iff {symbol : String} :
    (ofSymbol? symbol).isSome = true ↔ symbol ∈ ["+", "-", "*", "/", "^"] := by
  rw [mem_symbols_iff, Option.isSome_iff_exists]
  simp only [ofSymbol?_eq_some_iff]

end Op

namespace Directory

theorem find?_roster (o : Op) : ∀ scheduled : List Op,
    scheduled.find? (· == o) = if o ∈ scheduled then some o else none
  | [] => rfl
  | p :: rest => by
    by_cases same : o = p
    · subst same; simp
    · simp [find?_roster o rest, same, Ne.symm same]

theorem lookup_table (o : Op) : ∀ scheduled : List Op,
    (scheduled.map fun p => (p, p)).lookup o = if o ∈ scheduled then some o else none
  | [] => rfl
  | p :: rest => by
    simp only [List.map_cons, List.lookup_cons, List.mem_cons]
    by_cases same : o = p
    · subst same; simp
    · have differ : (o == p) = false := beq_false_of_ne same
      simp [differ, same, lookup_table o rest]

theorem lookup_eq (scheduled : List Op) (d : Directory) (o : Op) :
    d.lookup scheduled o = if d ≠ .hidden ∧ o ∈ scheduled then some o else none := by
  cases d with
  | roster => simp [lookup, find?_roster]
  | table => simp [lookup, lookup_table]
  | query => by_cases member : o ∈ scheduled <;> simp [lookup, queryWorker, member]
  | hidden => rfl

end Directory

namespace Session

theorem requestSymbol_of_ofSymbol? {s : Session} {symbol : String} {o : Op} (a b : Float)
    (known : Op.ofSymbol? symbol = some o) : requestSymbol symbol a b s = request o a b s := by
  simp [requestSymbol, known]

theorem requestSymbol_of_unknown {s : Session} {symbol : String} (a b : Float)
    (unknown : Op.ofSymbol? symbol = none) :
    requestSymbol symbol a b s = .error (.unsupported symbol) s := by
  simp [requestSymbol, unknown]

/-- A request by symbol is taken exactly when the symbol is that of an operator whose worker the
directory finds. -/
theorem requestSymbol_taken_iff {s : Session} {symbol : String} {a b : Float} :
    (∃ id s', requestSymbol symbol a b s = .ok id s') ↔ ∃ o, o.symbol = symbol ∧ s.finds o = true := by
  cases known : Op.ofSymbol? symbol with
  | none =>
    rw [requestSymbol_of_unknown a b known]
    constructor
    · rintro ⟨_, _, done⟩
      cases done
    · rintro ⟨o, spelled, -⟩
      rw [← Op.ofSymbol?_eq_some_iff, known] at spelled
      cases spelled
  | some o =>
    rw [requestSymbol_of_ofSymbol? a b known]
    -- the symbol's only operator is `o`
    have named : ∀ p, p.symbol = symbol ↔ p = o := fun p => by
      rw [← Op.ofSymbol?_eq_some_iff, known, Option.some.injEq, eq_comm]
    cases found : s.finds o
    · rw [request_of_not_finds found]
      constructor
      · rintro ⟨_, _, done⟩
        cases done
      · rintro ⟨p, same, finds⟩
        rw [(named p).mp same, found] at finds
        cases finds
    · rw [request_of_finds found]
      exact ⟨fun _ => ⟨o, (named o).mpr rfl, found⟩, fun _ => ⟨_, _, rfl⟩⟩

theorem requestSymbol_refused {s s' : Session} {symbol : String} {a b : Float} {e : SessionFault}
    (failed : requestSymbol symbol a b s = .error e s') :
    s' = s ∧ e = if (Op.ofSymbol? symbol).isSome then .noWorker else .unsupported symbol := by
  cases known : Op.ofSymbol? symbol with
  | none =>
    rw [requestSymbol_of_unknown a b known] at failed
    cases failed
    exact ⟨rfl, rfl⟩
  | some o =>
    rw [requestSymbol_of_ofSymbol? a b known] at failed
    cases found : s.finds o
    · rw [request_of_not_finds found] at failed
      cases failed
      exact ⟨rfl, rfl⟩
    · rw [request_of_finds found] at failed
      cases failed

/-- Look-ups agree in every shape but the hidden one, which finds nothing: each finds the worker
of an operator exactly when it is on the schedule. So a request by symbol is taken exactly when
the symbol is one of the five, the directory is not hidden and that operator's worker is
scheduled; a refused request says which of the two failed and leaves the whole session, queues and
outcomes included, as it was. -/
theorem request_needs_scheduled_worker (s : Session) (symbol : String) (a b : Float) :
    (∀ (scheduled : List Op) (d : Directory) (o : Op),
      d.lookup scheduled o = if d ≠ .hidden ∧ o ∈ scheduled then some o else none) ∧
    ((∃ id s', requestSymbol symbol a b s = .ok id s') ↔
      symbol ∈ ["+", "-", "*", "/", "^"] ∧ s.directory ≠ .hidden ∧
        ∃ o ∈ s.scheduled, o.symbol = symbol) ∧
    (∀ e s', requestSymbol symbol a b s = .error e s' → s' = s ∧
      e = if symbol ∈ ["+", "-", "*", "/", "^"] then .noWorker else .unsupported symbol) := by
  refine ⟨Directory.lookup_eq, ?_, fun e s' failed => ?_⟩
  · rw [requestSymbol_taken_iff]
    constructor
    · rintro ⟨o, spelled, found⟩
      obtain ⟨shown, member⟩ := finds_iff.mp found
      exact ⟨Op.mem_symbols_iff.mpr ⟨o, spelled⟩, shown, o, member, spelled⟩
    · rintro ⟨-, shown, o, member, spelled⟩
      exact ⟨o, spelled, finds_iff.mpr ⟨shown, member⟩⟩
  · obtain ⟨same, fault⟩ := requestSymbol_refused failed
    refine ⟨same, fault.trans ?_⟩
    simp only [Op.isSome_ofSymbol?_iff]

end Session

end AgentLab.Calc
