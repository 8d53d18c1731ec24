import Minigraf.Query.QueryText
import Minigraf.Query.SlotFilling

/-!
What a prepared query means: its template with every slot replaced by the value bound to
it, which is the query the parser reads where the literals stand in the text.

It does as long as no slot stands inside a vector, a list or a map. Neither the collection
of the names nor the substitution looks there, so such a slot needs no value and stays.
-/

namespace Minigraf

/-- A prepared query means the literal form of its template. -/
structure MeansLiteral (env : ParserEnv) (elements : List EdnValue) (pq : PreparedQuery) : Prop where
  succeeds : ∀ bindings, (∃ q, pq.filledQuery bindings = .ok q) ↔ ∀ o ∈ pq.template.occurrences, Bound bindings o
  replaced : ∀ bindings q, pq.filledQuery bindings = .ok q →
    q.occurrences = [] ∧ q = pq.template.fill (boundValue bindings)
  unread : ∀ bindings bindings',
    (∀ o ∈ pq.template.occurrences, boundValue bindings o.2 = boundValue bindings' o.2) →
      pq.filledQuery bindings = pq.filledQuery bindings'
  literal : ∀ bindings q lit, pq.filledQuery bindings = .ok q →
    WrittenSlots env (boundValue bindings) lit (textClocks env elements ++ pq.template.occurrences) →
      parseQuery env (EdnValue.fillItems lit elements) = .ok q

section

variable {env : ParserEnv} {elements : List EdnValue} {template : DatalogQuery} {pq : PreparedQuery}

theorem filledQuery_fits (prepared : prepareQuery template = .ok pq) {bindings : List (String × BindValue)}
    {q : DatalogQuery} (ran : pq.filledQuery bindings = .ok q) : Fits bindings template.occurrences := by
  by_contra unfit
  obtain ⟨e, failed⟩ := (PreparedQuery.filledQuery_spec prepared).fails bindings unfit
  rw [ran] at failed
  cases failed

/-- Without slots inside vectors, lists and maps nothing is missed. -/
theorem meansLiteral_of_outer (read : parseQuery env elements = .ok template)
    (prepared : prepareQuery template = .ok pq) (outer : ∀ o ∈ template.occurrences, o.1 ≠ .inner) :
    MeansLiteral env elements pq := by
  have spec := PreparedQuery.filledQuery_spec prepared
  obtain ⟨valid, rfl⟩ := prepareQuery_ok prepared
  have result : ∀ bindings q, PreparedQuery.filledQuery ⟨template, Prepared.collectSlotNames template⟩ bindings = .ok q →
      q.occurrences = [] ∧ q = template.fill (boundValue bindings) := by
    intro bindings q ran
    obtain ⟨q', ran', _, all⟩ := spec.ok bindings (filledQuery_fits prepared ran)
    rw [ran] at ran'
    cases ran'
    exact ⟨(all outer).2, (all outer).1⟩
  refine ⟨fun bindings => ⟨fun ⟨q, ran⟩ o mem => ?_, fun bound => ?_⟩, result, spec.reads,
    fun bindings q lit ran written => ?_⟩
  · exact filledQuery_fits prepared ran o mem (outer o mem)
  · obtain ⟨q, ran, _⟩ := spec.ok bindings fun o mem _ => bound o mem
    exact ⟨q, ran⟩
  · obtain ⟨clocks, slots⟩ := WrittenSlots.append.mp written
    obtain ⟨_, bodies⟩ := WrittenSlots.append.mp slots
    rw [(result bindings q ran).2]
    exact parseQuery_fill read valid clocks bodies

/-- Where no bindings fit there is nothing to go wrong. -/
theorem meansLiteral_of_unfit (prepared : prepareQuery template = .ok pq)
    (unfit : ¬ ∃ bindings, Fits bindings template.occurrences) : MeansLiteral env elements pq := by
  have fails : ∀ bindings q, pq.filledQuery bindings ≠ .ok q := fun bindings q ran =>
    unfit ⟨bindings, filledQuery_fits prepared ran⟩
  obtain ⟨_, same⟩ := prepareQuery_ok prepared
  refine ⟨fun bindings => ?_, fun bindings q ran => absurd ran (fails bindings q), fun bindings bindings' agree => ?_,
    fun bindings q _ ran => absurd ran (fails bindings q)⟩
  · refine iff_of_false (fun ⟨q, ran⟩ => fails bindings q ran) fun bound => unfit ⟨bindings, fun o mem _ => ?_⟩
    exact bound o (by rwa [same])
  · refine (PreparedQuery.filledQuery_spec prepared).reads bindings bindings' fun o mem => agree o ?_
    rwa [same]

/-- A prepared query means its literal form if and only if no slot of its template stands
inside a vector, a list or a map, or no bindings fit the other slots. -/
theorem PreparedQuery.meansLiteral_iff (env : ParserEnv) (elements : List EdnValue) (template : DatalogQuery)
    (pq : PreparedQuery) (read : parseQuery env elements = .ok template)
    (prepared : prepareQuery template = .ok pq) :
    MeansLiteral env elements pq ↔ (∀ o ∈ template.occurrences, o.1 ≠ .inner) ∨
      ¬ ∃ bindings, Fits bindings template.occurrences := by
  constructor
  · intro means
    by_contra both
    rw [not_or, not_not] at both
    obtain ⟨inside, bindings, fits⟩ := both
    obtain ⟨o, hidden⟩ := Classical.not_forall.mp inside
    obtain ⟨mem, inner⟩ := Classical.not_imp.mp hidden
    obtain ⟨q, ran, kept, _⟩ := (PreparedQuery.filledQuery_spec prepared).ok bindings fits
    have stays := kept o mem (not_not.mp inner)
    rw [(means.replaced bindings q ran).1] at stays
    cases stays
  · intro holds
    rcases holds with outer | unfit
    · exact meansLiteral_of_outer read prepared outer
    · exact meansLiteral_of_unfit prepared unfit

end

/-- A reader of no timestamp and of any regex. -/
def plainParser : ParserEnv := ⟨fun _ => .error "", fun _ => .ok ()⟩

/-- `[:find ?e :where [?e :a e]]` with another value for `e`. -/
def valueQuery (value : EdnValue) : List EdnValue :=
  [.vector [.keyword ":find", .var (.named "e"), .keyword ":where",
    .vector [.var (.named "e"), .keyword ":a", value]]]

def valueTemplate (value : EdnValue) : DatalogQuery :=
  ⟨[.var (.named "e")], [.pattern ⟨.var (.named "e"), .real (.keyword ":a"), value⟩], none, none, [], none, none⟩

theorem PreparedQuery.meansLiteral_value :
    MeansLiteral plainParser (valueQuery (.bindSlot "x")) ⟨valueTemplate (.bindSlot "x"), ["x"]⟩ :=
  (PreparedQuery.meansLiteral_iff plainParser (valueQuery (.bindSlot "x")) (valueTemplate (.bindSlot "x"))
    ⟨valueTemplate (.bindSlot "x"), ["x"]⟩ rfl rfl).mpr (.inl (by
      intro o mem
      rw [List.mem_singleton.mp mem]
      decide))

/-- A slot in a vector is prepared, needs no value, and is still there when the query runs. -/
theorem PreparedQuery.innerSlot_stays :
    parseQuery plainParser (valueQuery (.vector [.bindSlot "x"])) = .ok (valueTemplate (.vector [.bindSlot "x"])) ∧
    prepareQuery (valueTemplate (.vector [.bindSlot "x"])) = .ok ⟨valueTemplate (.vector [.bindSlot "x"]), []⟩ ∧
    PreparedQuery.filledQuery ⟨valueTemplate (.vector [.bindSlot "x"]), []⟩ [] =
      .ok (valueTemplate (.vector [.bindSlot "x"])) ∧
    (valueTemplate (.vector [.bindSlot "x"])).occurrences = [(.inner, "x")] ∧
    ¬ MeansLiteral plainParser (valueQuery (.vector [.bindSlot "x"])) ⟨valueTemplate (.vector [.bindSlot "x"]), []⟩ := by
  refine ⟨rfl, rfl, rfl, rfl, fun means => ?_⟩
  have stays := (means.replaced [] (valueTemplate (.vector [.bindSlot "x"])) rfl).1
  cases stays

end Minigraf
