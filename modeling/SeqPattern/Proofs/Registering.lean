import Mathlib.Data.List.Induction
import SeqPattern.Meaning.Registering

namespace SeqPattern.Registry

variable {m : Type → Type} {α : Type} {requests : List (Request m α)}

section Latest

theorem mem_registrations {name : String} {make : m (Expression α)} :
    (name, make) ∈ registrations requests ↔ .register name make ∈ requests := by
  simp only [registrations, List.mem_filterMap]
  constructor
  · rintro ⟨request, hrequest, hregistered⟩
    cases request <;> cases hregistered
    exact hrequest
  · intro h
    exact ⟨_, h, rfl⟩

theorem latest_isSome (requests : List (Request m α)) (name : String) :
    (latest requests name).isSome ↔ ∃ make, .register name make ∈ requests := by
  simp [latest, ← mem_registrations]

theorem after_append (r : Registry m α) (requests more : List (Request m α)) :
    r.after (requests ++ more) = (r.after requests).after more := by
  simp [after, registrations]

theorem constructors_after (requests : List (Request m α)) (name : String) :
    (({} : Registry m α).after requests).constructors[name]? = latest requests name := by
  rw [after, latest]
  induction registrations requests using List.reverseRecOn with
  | nil => simp
  | append_singleton earlier p ih =>
    rw [List.foldl_append, List.filter_append, List.foldl_cons, List.foldl_nil, register,
      Std.TreeMap.getElem?_insert, ih]
    by_cases hname : p.1 = name <;> simp [hname]

theorem contains_after (requests : List (Request m α)) (name : String) :
    (({} : Registry m α).after requests).contains name = (latest requests name).isSome := by
  rw [contains, Std.TreeMap.contains_eq_isSome_getElem?, constructors_after]

theorem names_ascending (r : Registry m α) : r.names.Pairwise (· < ·) := by
  apply r.constructors.ordered_keys.imp
  intro a b hlt
  exact compareOfLessAndEq_eq_lt.mp hlt

theorem mem_names (r : Registry m α) (name : String) :
    name ∈ r.names ↔ r.contains name = true := by
  rw [names, Std.TreeMap.mem_keys, contains, Std.TreeMap.contains_iff_mem]

end Latest

@[simp]
theorem map_outcome {β γ : Type} (f : β → γ) (missing : Option String) (b : β) :
    (outcome missing b).map f = outcome missing (f b) := by
  cases missing <;> rfl

section Serving

variable [Monad m] [LawfulMonad m]

theorem exists_serve_eq (r : Registry m α) (request : Request m α) :
    ∃ answer : m (Reply α), r.serve request = (·, r.after [request]) <$> answer := by
  have hstays (h : request.registered? = none) : r.after [request] = r := by
    simp [after, registrations, h]
  cases request with
  | register name make =>
    exact ⟨pure .done, by simp [serve, after, registrations, Request.registered?]⟩
  | contains name => exact ⟨pure (.verdict (r.contains name)), by simp [serve, hstays rfl]⟩
  | names => exact ⟨pure (.names r.names), by simp [serve, hstays rfl]⟩
  | get name => exact ⟨.built <$> (r.get name).run, by simp [serve, hstays rfl]⟩
  | getSequence names =>
    exact ⟨.built <$> (r.getSequence names).run, by simp [serve, hstays rfl]⟩
  | getAlternation names =>
    exact ⟨.built <$> (r.getAlternation names).run, by simp [serve, hstays rfl]⟩

theorem exists_serveAll_eq (r : Registry m α) (requests : List (Request m α)) :
    ∃ answers : m (List (Reply α)), r.serveAll requests = (·, r.after requests) <$> answers := by
  induction requests generalizing r with
  | nil => exact ⟨pure [], by simp [serveAll, after, registrations]⟩
  | cons request requests ih =>
    obtain ⟨answer, hanswer⟩ := exists_serve_eq r request
    obtain ⟨answers, hanswers⟩ := ih (r.after [request])
    refine ⟨do return (← answer) :: (← answers), ?_⟩
    have hafter := after_append r [request] requests
    rw [List.singleton_append] at hafter
    simp [serveAll, hanswer, hanswers, hafter]

theorem serveAll_append (r : Registry m α) (requests more : List (Request m α)) :
    r.serveAll (requests ++ more) = do
      let (replies, r) ← r.serveAll requests
      let (others, r) ← r.serveAll more
      return (replies ++ others, r) := by
  induction requests generalizing r with
  | nil => simp [serveAll]
  | cons request requests ih => simp [serveAll, ih]

omit [LawfulMonad m] in
theorem run_get (requests : List (Request m α)) (name : String) :
    ((({} : Registry m α).after requests).get name).run =
      match latest requests name with
      | some make => .ok <$> make
      | none => pure (.error (.unknownName name)) := by
  rw [get, constructors_after]
  cases latest requests name with
  | none => rfl
  | some make => exact ExceptT.run_lift make

/-- The constructors of the names are run in turn, once for each time a name is given, up to the
first name that is missing. -/
theorem exists_run_getEach (requests : List (Request m α)) (names : List String) :
    ∃ makes : List (m (Expression α)),
      (names.map (latest requests)).takeWhile Option.isSome = makes.map some ∧
      ((({} : Registry m α).after requests).getEach names).run =
        outcome (missing requests names) <$> makes.mapM id := by
  induction names with
  | nil => exact ⟨[], rfl, by simp [getEach, missing, outcome]⟩
  | cons name names ih =>
    obtain ⟨makes, hmakes, hrun⟩ := ih
    cases hlatest : latest requests name with
    | none =>
      have hmissing : missing requests (name :: names) = some name := by simp [missing, hlatest]
      refine ⟨[], by simp [hlatest], ?_⟩
      rw [hmissing, getEach, ExceptT.run_bind, run_get, hlatest]
      simp [outcome]
    | some make =>
      have hmissing : missing requests (name :: names) = missing requests names := by
        simp [missing, hlatest]
      refine ⟨make :: makes, by simp [hlatest, hmakes], ?_⟩
      rw [hmissing, getEach, ExceptT.run_bind, run_get, hlatest]
      simp [hrun]

/-- A registry is what its registrations have made of it, whatever else it has been asked and
whatever came of that. It knows the names that were registered, in ascending order, and runs the
constructor that was registered last under a name. For several names those are run in turn, once
for each time a name is given, up to the first name that was never registered; that name is then
missing, and nothing is run for those after it. -/
theorem lookups_follow_last_registrations (history later : List (Request m α)) :
    let r := ({} : Registry m α).after history
    ({} : Registry m α).serveAll (history ++ later) = (do
      let (replies, _) ← ({} : Registry m α).serveAll history
      let (others, last) ← r.serveAll later
      return (replies ++ others, last)) ∧
    (∀ name, r.contains name = true ↔ ∃ make, .register name make ∈ history) ∧
    (r.names.Pairwise (· < ·) ∧
      ∀ name, name ∈ r.names ↔ ∃ make, .register name make ∈ history) ∧
    (∀ name, (r.get name).run = match latest history name with
      | some make => .ok <$> make
      | none => pure (.error (.unknownName name))) ∧
    (∀ names, ∃ makes : List (m (Expression α)),
      (names.map (latest history)).takeWhile Option.isSome = makes.map some ∧
      (r.getSequence names).run = (do
        return outcome (missing history names) (.sequence (← makes.mapM id))) ∧
      (r.getAlternation names).run = (do
        return outcome (missing history names) (.alternation (← makes.mapM id)))) ∧
    (∀ names, missing history names = none ↔
      ∀ name ∈ names, ∃ make, .register name make ∈ history) ∧
    ∀ name, (Failure.unknownName name).kind = .missingArgument := by
  intro r
  have hcontains (name : String) :
      r.contains name = true ↔ ∃ make, .register name make ∈ history := by
    rw [contains_after, latest_isSome]
  refine ⟨?_, hcontains, ⟨names_ascending r, fun name => ?_⟩, run_get history, fun names => ?_,
    fun names => ?_, fun name => rfl⟩
  · obtain ⟨answers, hanswers⟩ := exists_serveAll_eq ({} : Registry m α) history
    rw [serveAll_append, hanswers, bind_map_left, bind_map_left]
  · exact (mem_names r name).trans (hcontains name)
  · obtain ⟨makes, hmakes, hrun⟩ := exists_run_getEach history names
    refine ⟨makes, hmakes, ?_, ?_⟩
    · simp [r, getSequence, hrun]
    · simp [r, getAlternation, hrun]
  · simp [missing, ← latest_isSome, Option.isSome_iff_ne_none]

end Serving

def recorded {α : Type} (record : String) (e : Expression α) :
    StateM (List String) (Expression α) := do
  modify (· ++ [record])
  return e

/-- A name is registered again, another one never, and one is asked for before it is known. -/
theorem lookups_follow_last_registrations_recorded :
    let history : List (Request (StateM (List String)) Nat) :=
      [.register "a" (recorded "first" (.sequence [])), .get "b", .getSequence ["a", "c"],
        .register "b" (recorded "other" (.anchor .start)),
        .register "a" (recorded "second" (.anchor .stop))]
    let r := ({} : Registry (StateM (List String)) Nat).after history
    ((r.getAlternation ["a", "b", "a"]).run []).2 = ["second", "other", "second"] ∧
      ((r.getSequence ["b", "c", "a", "d"]).run []) = (.error (.unknownName "c"), ["other"]) := by
  intro history r
  obtain ⟨-, -, -, -, hbuilt, -⟩ := lookups_follow_last_registrations history []
  obtain ⟨found, hfound, -, halternation⟩ := hbuilt ["a", "b", "a"]
  obtain ⟨before, hbefore, hsequence, -⟩ := hbuilt ["b", "c", "a", "d"]
  have hall : found = [recorded "second" (.anchor .stop), recorded "other" (.anchor .start),
      recorded "second" (.anchor .stop)] :=
    (List.map_inj_right fun _ _ => Option.some.inj).mp (hfound.symm.trans rfl)
  have hone : before = [recorded "other" (.anchor .start)] :=
    (List.map_inj_right fun _ _ => Option.some.inj).mp (hbefore.symm.trans rfl)
  have hmissing : missing history ["b", "c", "a", "d"] = some "c" := rfl
  subst hall hone
  rw [halternation, hsequence, hmissing]
  exact ⟨rfl, rfl⟩

end SeqPattern.Registry
