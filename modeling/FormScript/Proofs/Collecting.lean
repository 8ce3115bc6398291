import FormScript.Journal.Collector

/-!
# What a collector keeps

A collector is handed sources and events in any order. What it keeps of a source depends on the
events of that source alone: the first so many of them, and one warning in place of all that follow
(`capped`). `Collector.Holds` is what is true of a collector after any calls, and one more call
keeps it.

The summary goes through the sources one by one, so its numbers are lengths of lists: of the
sources, of those with a failure among what is kept, of the failures and of the warnings that are
kept (`Collector.summary_eq`). As it looks at what is kept, **a source that fails late is not
counted as failed**: `late_failure_counted_as_compiled` is a run in which that happens, and
`failed_counts_kept_failures` says that nothing else can go wrong.
-/

namespace FormScript

/-! ## Keyed lists -/

namespace Keyed

variable {α : Type} {key : String} {f : Option α → α} {m : Keyed α}

/-- The keys of a list. -/
def keys (m : Keyed α) : List String := m.map Prod.fst

/-- Every key stands in front of the greater ones, so none stands there twice. -/
def Ascending (m : Keyed α) : Prop := m.keys.Pairwise (· < ·)

theorem Ascending.nodup (h : m.Ascending) : m.keys.Nodup := by
  refine List.Pairwise.imp ?_ h
  rintro a _ hlt rfl
  exact String.lt_irrefl a hlt

theorem lookup_cons_eq (k key : String) (v : α) (m : Keyed α) :
    List.lookup key ((k, v) :: m) = if key = k then some v else m.lookup key := by
  by_cases h : key = k
  · rw [if_pos h, h, List.lookup_cons_self]
  · rw [if_neg h, List.lookup_cons, beq_false_of_ne h]

theorem lookup_isNone_iff : (m.lookup key).isNone = true ↔ key ∉ m.keys := by
  rw [Option.isNone_iff_eq_none, List.lookup_eq_none_iff, keys, List.mem_map]
  constructor
  · rintro h ⟨p, hp, rfl⟩
    simpa using h p hp
  · intro h p hp
    rw [bne_iff_ne]
    rintro rfl
    exact h ⟨p, hp, rfl⟩

theorem mem_keys_change (k : String) : k ∈ keys (change key f m) ↔ k = key ∨ k ∈ m.keys := by
  induction m with
  | nil => simp [change, keys]
  | cons p m ih =>
    obtain ⟨k', v⟩ := p
    simp only [keys, List.map_cons, List.mem_cons] at ih ⊢
    rw [change]
    split
    · rename_i heq
      simp [heq]
    split
    · simp
    · rw [List.map_cons, List.mem_cons, ih]
      exact or_left_comm

theorem Ascending.change (h : m.Ascending) : (Keyed.change key f m).Ascending := by
  induction m with
  | nil => exact List.pairwise_singleton _ _
  | cons p m ih =>
    obtain ⟨k, v⟩ := p
    obtain ⟨hk, hm⟩ := List.pairwise_cons.mp h
    rw [Keyed.change]
    split
    · exact h
    split
    · rename_i hlt
      refine List.pairwise_cons.mpr ⟨fun k' hk' => ?_, h⟩
      rcases List.mem_cons.mp hk' with rfl | hk'
      · exact hlt
      · exact String.lt_trans hlt (hk k' hk')
    · rename_i hne hnlt
      refine List.pairwise_cons.mpr ⟨fun k' hk' => ?_, ih hm⟩
      rcases (mem_keys_change k').mp hk' with rfl | hk'
      · -- Neither equal nor smaller, so greater.
        refine Decidable.byContradiction fun hgt => hne ?_
        exact String.le_antisymm (String.not_lt.mp hgt) (String.not_lt.mp hnlt)
      · exact hk k' hk'

/-- **Changing a value** changes what is found under its key, and nothing else. -/
theorem lookup_change (h : m.Ascending) (k : String) :
    (change key f m).lookup k = if k = key then some (f (m.lookup key)) else m.lookup k := by
  induction m with
  | nil => exact lookup_cons_eq key k (f none) []
  | cons p m ih =>
    obtain ⟨k', v⟩ := p
    obtain ⟨hk', hm⟩ := List.pairwise_cons.mp h
    rw [change]
    split
    · rename_i heq
      subst heq
      rw [lookup_cons_eq, lookup_cons_eq, lookup_cons_eq, if_pos rfl]
      split <;> rfl
    split
    · rename_i hne hlt
      -- The key would stand before this one, so it is not there.
      have hnone : m.lookup key = none := by
        rw [← Option.isNone_iff_eq_none, lookup_isNone_iff]
        exact fun hmem => String.lt_asymm hlt (hk' key hmem)
      rw [lookup_cons_eq key, lookup_cons_eq k' key, if_neg hne, hnone]
    · rename_i hne _
      rw [lookup_cons_eq, lookup_cons_eq, lookup_cons_eq, ih hm, if_neg hne]
      by_cases hk : k = k'
      · subst hk
        rw [if_pos rfl, if_pos rfl, if_neg (Ne.symm hne)]
      · rw [if_neg hk, if_neg hk]

end Keyed

/-! ## Calls -/

namespace Collector

/-- What a collector can be told: that a source is compiled, or an event of a source. -/
inductive Call where
  | source (name : String)
  | event (name : String) (event : Event)

/-- The source that a call is about. -/
def Call.name : Call → String
  | source name => name
  | event name _ => name

/-- The event of a call, if it is one of that source. -/
def Call.eventOf? (source : String) : Call → Option Event
  | .source _ => none
  | .event name e => if source = name then some e else none

/-- The events of a source among some calls, in order. -/
def eventsOf (source : String) (calls : List Call) : List Event :=
  calls.filterMap (Call.eventOf? source)

/-- A collector after one more call. -/
def take (c : Collector) : Call → Collector
  | .source name => c.addSource name
  | .event name e => c.addEvent name e

/-- A collector after some calls. -/
def ofCalls (calls : List Call) : Collector := calls.foldl take {}

/-- The first events up to the limit, and a warning if there are more. -/
def capped (events : List Event) : List Event :=
  events.take Limits.eventsPerSource ++
    if Limits.eventsPerSource < events.length then [overflow] else []

theorem eventsOf_concat (source : String) (calls : List Call) (call : Call) :
    eventsOf source (calls ++ [call]) = eventsOf source calls ++ (call.eventOf? source).toList := by
  rw [eventsOf, List.filterMap_append, eventsOf]
  cases h : call.eventOf? source <;> simp [h]

/-- **One more event.** Below the limit it is kept, at the limit the warning is, and behind it
nothing. -/
theorem keep_capped {bucket : Array Event} {events : List Event} (h : bucket.toList = capped events)
    (e : Event) : (keep bucket e).toList = capped (events ++ [e]) := by
  have hsize : bucket.size = (capped events).length := by rw [← Array.length_toList, h]
  rw [capped] at h hsize
  rw [capped, List.length_append, List.length_singleton, keep]
  generalize Limits.eventsPerSource = limit at h hsize ⊢
  rw [List.length_append, List.length_take] at hsize
  rcases Nat.lt_trichotomy events.length limit with hlt | heq | hgt
  · rw [if_neg (by omega)] at hsize h
    rw [if_pos (by simp at hsize; omega), if_neg (by omega),
      List.take_of_length_le (by simp; omega)]
    rw [List.take_of_length_le (by omega)] at h
    simpa using h
  · rw [if_neg (by omega)] at hsize h
    rw [if_neg (by simp at hsize; omega), if_pos (by simp at hsize; omega), if_pos (by omega),
      List.take_append_of_le_length (by omega), Array.toList_push, h]
    simp
  · rw [if_pos hgt] at hsize h
    rw [if_neg (by simp at hsize; omega), if_neg (by simp at hsize; omega), if_pos (by omega),
      List.take_append_of_le_length (by omega), h]

/-- What is true of a collector after some calls. -/
structure Holds (c : Collector) (calls : List Call) : Prop where
  ascending : c.buckets.Ascending
  nodup : c.sources.Nodup
  named : ∀ n, (n ∈ c.buckets.keys ∨ n ∈ c.sources) ↔ ∃ call ∈ calls, call.name = n
  kept : ∀ source, c.eventsFor source = capped (eventsOf source calls)

theorem holds_nil : Holds {} [] where
  ascending := List.Pairwise.nil
  nodup := List.Pairwise.nil
  named := by simp [Keyed.keys]
  kept := fun _ => rfl

theorem eventsFor_addEvent {c : Collector} (h : c.buckets.Ascending) (name source : String)
    (e : Event) : (c.addEvent name e).eventsFor source =
      if source = name then (keep ((c.buckets.lookup name).getD #[]) e).toList
      else c.eventsFor source := by
  rw [eventsFor, addEvent, Keyed.lookup_change h]
  split
  · rfl
  · rfl

/-- **One more call**, whatever it is about. -/
theorem Holds.take {c : Collector} {calls : List Call} (h : c.Holds calls) (call : Call) :
    (c.take call).Holds (calls ++ [call]) := by
  have hnamed : ∀ n, (∃ x ∈ calls ++ [call], x.name = n) ↔
      call.name = n ∨ ∃ x ∈ calls, x.name = n := by
    intro n
    simp only [List.mem_append, List.mem_singleton, or_and_right, exists_or, exists_eq_left]
    exact or_comm
  cases call with
  | source name =>
    have hkept : ∀ source,
        c.eventsFor source = capped (eventsOf source (calls ++ [.source name])) := by
      intro source
      rw [eventsOf_concat, h.kept]
      exact congrArg capped (List.append_nil _).symm
    rw [Collector.take, addSource]
    split
    · rename_i hmem
      refine ⟨h.ascending, h.nodup, fun n => ?_, hkept⟩
      rw [hnamed, ← h.named]
      refine ⟨.inr, fun hn => hn.elim ?_ id⟩
      rintro rfl
      exact .inr (List.contains_iff_mem.mp hmem)
    · rename_i hmem
      refine ⟨h.ascending,
        List.nodup_cons.mpr ⟨fun hn => hmem (List.contains_iff_mem.mpr hn), h.nodup⟩,
        fun n => ?_, hkept⟩
      rw [hnamed, ← h.named, List.mem_cons, eq_comm (a := n)]
      exact or_left_comm
  | event name e =>
    refine ⟨h.ascending.change, h.nodup, fun n => ?_, fun source => ?_⟩
    · rw [hnamed, ← h.named, ← or_assoc, eq_comm (a := Call.name _)]
      exact or_congr_left (Keyed.mem_keys_change n)
    · rw [Collector.take, eventsFor_addEvent h.ascending, eventsOf_concat, Call.eventOf?]
      split
      · rename_i hsource
        subst hsource
        exact keep_capped (h.kept source) e
      · rw [h.kept]
        exact congrArg capped (List.append_nil _).symm

/-- **Any calls**, in whatever order. -/
theorem holds_ofCalls (calls : List Call) : (ofCalls calls).Holds calls := by
  suffices ∀ (c : Collector) (before : List Call), c.Holds before →
      (calls.foldl Collector.take c).Holds (before ++ calls) from this {} [] holds_nil
  induction calls with
  | nil =>
    intro c before h
    rwa [List.append_nil]
  | cons call calls ih =>
    intro c before h
    have := ih (c.take call) (before ++ [call]) (h.take call)
    rwa [List.append_assoc] at this

/-! ## The summary -/

/-- Whether a failure is kept of a source. -/
def hasFailure (c : Collector) (source : String) : Bool := (c.eventsFor source).any Event.isError

/-- **The summary in one piece.** -/
theorem summary_eq (c : Collector) : c.summary =
    { total := c.names.length
      compiled := c.names.countP (!c.hasFailure ·)
      failed := c.names.countP c.hasFailure
      errors := (c.names.flatMap c.eventsFor).countP Event.isError
      warnings := (c.names.flatMap c.eventsFor).countP Event.isWarning } := by
  suffices ∀ (names : List String) (s : RunSummary), names.foldl c.count s =
      { total := s.total + names.length
        compiled := s.compiled + names.countP (!c.hasFailure ·)
        failed := s.failed + names.countP c.hasFailure
        errors := s.errors + (names.flatMap c.eventsFor).countP Event.isError
        warnings := s.warnings + (names.flatMap c.eventsFor).countP Event.isWarning } by
    simpa [summary] using this c.names {}
  intro names
  induction names with
  | nil => simp
  | cons n names ih =>
    intro s
    have hfailure : c.hasFailure n = decide (0 < (c.eventsFor n).countP Event.isError) := by
      rw [hasFailure, Bool.eq_iff_iff, List.any_eq_true, decide_eq_true_iff, List.countP_pos_iff]
    rw [List.foldl_cons, ih, count]
    simp only [RunSummary.mk.injEq, List.length_cons, List.countP_cons, List.flatMap_cons,
      List.countP_append, hfailure]
    by_cases h : 0 < (c.eventsFor n).countP Event.isError
    · simp [h]
      omega
    · simp [h]
      omega

namespace Holds

variable {c : Collector} {calls : List Call}

/-- Each source that was met is listed once. -/
theorem names (h : c.Holds calls) : c.names.Nodup ∧
    ∀ n, n ∈ c.names ↔ ∃ call ∈ calls, call.name = n := by
  have hmem : ∀ n, n ∈ c.names ↔ n ∈ c.buckets.keys ∨ n ∈ c.sources := by
    intro n
    rw [Collector.names, List.mem_append, List.mem_filter, Keyed.lookup_isNone_iff]
    refine ⟨Or.imp_right And.left, fun hn => ?_⟩
    by_cases hkey : n ∈ c.buckets.keys
    · exact .inl hkey
    · exact .inr ⟨hn.resolve_left hkey, hkey⟩
  refine ⟨List.nodup_append.mpr ⟨h.ascending.nodup, h.nodup.filter _, ?_⟩, fun n => ?_⟩
  · rintro n hn m hm rfl
    exact Keyed.lookup_isNone_iff.mp (List.mem_filter.mp hm).2 hn
  · rw [hmem, h.named]

/-- A failure is kept of a source if it is among the first events up to the limit. -/
theorem hasFailure_iff (h : c.Holds calls) (source : String) : c.hasFailure source = true ↔
    ∃ e ∈ (eventsOf source calls).take Limits.eventsPerSource, e.isError = true := by
  have hoverflow : overflow.isError = false := rfl
  rw [hasFailure, h.kept, capped, List.any_append, Bool.or_eq_true, List.any_eq_true]
  refine or_iff_left ?_
  split
  · simp [hoverflow]
  · simp

end Holds

theorem eventOf?_eq_some_iff {source : String} {call : Call} {e : Event} :
    call.eventOf? source = some e ↔ call = .event source e := by
  cases call with
  | source => simp [Call.eventOf?]
  | event name e' =>
    rw [Call.eventOf?, Option.ite_none_right_eq_some, Call.event.injEq, Option.some.injEq,
      eq_comm (a := source)]

theorem mem_eventsOf {source : String} {calls : List Call} {e : Event} :
    e ∈ eventsOf source calls ↔ .event source e ∈ calls := by
  simp only [eventsOf, List.mem_filterMap, eventOf?_eq_some_iff, exists_eq_right]

/-- The sources of which a failure is kept are those that count as failed. -/
theorem exists_failed (calls : List Call) : ∃ failed : List String, failed.Nodup ∧
    (ofCalls calls).summary.failed = failed.length ∧
    ∀ n, n ∈ failed ↔ ∃ e ∈ (eventsOf n calls).take Limits.eventsPerSource, e.isError = true := by
  have h := holds_ofCalls calls
  refine ⟨(ofCalls calls).names.filter (ofCalls calls).hasFailure, h.names.1.filter _, ?_,
    fun n => ?_⟩
  · rw [summary_eq]
    exact List.countP_eq_length_filter
  · rw [List.mem_filter, h.hasFailure_iff, h.names.2]
    refine and_iff_right_of_imp ?_
    rintro ⟨e, he, -⟩
    exact ⟨.event n e, mem_eventsOf.mp (List.mem_of_mem_take he), rfl⟩

end Collector

open Collector

/-- **A collector is a log with a limit.** Whatever the calls and however those for different
sources are mixed, it keeps the first thousand events of each source in order, and a single warning
if there are more. The summary counts every source that was met once, as compiled or as failed, and
counts the failures and warnings that are kept; there are failures if and only if a source has
failed. -/
theorem collector_keeps_capped_log (calls : List Call) :
    (∀ source, (ofCalls calls).eventsFor source = (eventsOf source calls).take 1000 ++
      if 1000 < (eventsOf source calls).length then [overflow] else []) ∧
    overflow.isWarning = true ∧
    ∃ names : List String, names.Nodup ∧ (∀ n, n ∈ names ↔ ∃ call ∈ calls, call.name = n) ∧
      (ofCalls calls).summary.total = names.length ∧
      (ofCalls calls).summary.compiled + (ofCalls calls).summary.failed
        = (ofCalls calls).summary.total ∧
      (ofCalls calls).summary.errors
        = (names.flatMap (ofCalls calls).eventsFor).countP Event.isError ∧
      (ofCalls calls).summary.warnings
        = (names.flatMap (ofCalls calls).eventsFor).countP Event.isWarning ∧
      ((ofCalls calls).summary.hasErrors = true ↔ 0 < (ofCalls calls).summary.failed) := by
  have h := holds_ofCalls calls
  obtain ⟨hnodup, hnames⟩ := h.names
  refine ⟨h.kept, rfl, (ofCalls calls).names, hnodup, hnames, ?_⟩
  rw [summary_eq]
  refine ⟨rfl, ?_, rfl, rfl, ?_⟩
  · dsimp only
    rw [Nat.add_comm, List.length_eq_countP_add_countP (ofCalls calls).hasFailure]
    simp only [Bool.not_eq_true, Bool.decide_eq_false]
  · -- A failure that is kept is one of a source.
    rw [RunSummary.hasErrors, decide_eq_true_iff, List.countP_pos_iff, List.countP_pos_iff]
    simp only [List.mem_flatMap, hasFailure, List.any_eq_true]
    constructor
    · rintro ⟨e, ⟨n, hn, he⟩, herror⟩
      exact ⟨n, hn, e, he, herror⟩
    · rintro ⟨n, hn, e, he, herror⟩
      exact ⟨e, ⟨n, hn, he⟩, herror⟩

/-- **Failed sources, as far as they are counted.** A source counts as failed if a failure is among
its first thousand events. One that fails and does not count has had more events than that, and a
warning says so. -/
theorem failed_counts_kept_failures (calls : List Call) :
    ∃ failed : List String, failed.Nodup ∧ (ofCalls calls).summary.failed = failed.length ∧
      (∀ n, n ∈ failed ↔ ∃ e ∈ (eventsOf n calls).take 1000, e.isError = true) ∧
      ∀ n e, .event n e ∈ calls → e.isError = true → n ∉ failed →
        1000 < (eventsOf n calls).length ∧ overflow ∈ (ofCalls calls).eventsFor n := by
  obtain ⟨failed, hnodup, hcount, hfailed⟩ := exists_failed calls
  refine ⟨failed, hnodup, hcount, hfailed, fun n e he herror hn => ?_⟩
  have hmore : Limits.eventsPerSource < (eventsOf n calls).length := by
    refine Nat.lt_of_not_le fun hle => hn ((hfailed n).mpr ⟨e, ?_, herror⟩)
    rw [List.take_of_length_le hle]
    exact mem_eventsOf.mpr he
  refine ⟨hmore, ?_⟩
  rw [(holds_ofCalls calls).kept, capped]
  exact List.mem_append_right _ (by rw [if_pos hmore]; exact List.mem_singleton_self _)

/-- A thousand warnings of a source, and then a failure of it. -/
def lateFailure : List Call :=
  List.replicate Limits.eventsPerSource (.event "a" (.warning "w"))
    ++ [.event "a" (.error "E001" "e")]

theorem take_eventsOf_lateFailure (n : String) :
    ∀ e ∈ (eventsOf n lateFailure).take Limits.eventsPerSource, e = .warning "w" := by
  intro e he
  have hcall : Call.event n e ∈ lateFailure := mem_eventsOf.mp (List.mem_of_mem_take he)
  obtain rfl : n = "a" := by
    rcases List.mem_append.mp hcall with h | h
    · exact (Call.event.inj (List.eq_of_mem_replicate h)).1
    · exact (Call.event.inj (List.mem_singleton.mp h)).1
  have hevents : eventsOf "a" lateFailure
      = List.replicate Limits.eventsPerSource (.warning "w") ++ [.error "E001" "e"] := by
    rw [eventsOf, lateFailure, List.filterMap_append,
      List.filterMap_replicate_of_some (eventOf?_eq_some_iff.mpr rfl)]
    rfl
  rw [hevents, List.take_left' (List.length_replicate ..)] at he
  exact List.eq_of_mem_replicate he

/-- **Not every source that fails is counted as failed.** -/
theorem late_failure_counted_as_compiled : ¬ ∀ calls : List Call, ∃ failed : List String,
    failed.Nodup ∧ (∀ n, n ∈ failed ↔ ∃ e, .event n e ∈ calls ∧ e.isError = true) ∧
      (ofCalls calls).summary.failed = failed.length := by
  intro h
  obtain ⟨failed, -, hmem, hcount⟩ := h lateFailure
  have hpos : 0 < failed.length :=
    List.length_pos_of_mem ((hmem "a").mpr ⟨_, List.mem_append_right _ List.mem_cons_self, rfl⟩)
  obtain ⟨kept, -, hkept, hfailures⟩ := exists_failed lateFailure
  have hnone : kept = [] := by
    refine List.eq_nil_iff_forall_not_mem.mpr fun n hn => ?_
    obtain ⟨e, he, herror⟩ := (hfailures n).mp hn
    rw [take_eventsOf_lateFailure n e he] at herror
    cases herror
  rw [← hcount, hkept, hnone] at hpos
  exact absurd hpos (Nat.lt_irrefl 0)

end FormScript
