import SeqPattern.Foreign.Standard
import SeqPattern.Proofs.Coherence

namespace SeqPattern

open Search Stacking

variable {α : Type}

structure Match.LiesFrom (xs : Array α) (p : Nat) (m : Match) : Prop where
  index_eq : m.index = p
  success : m.success = true
  inside : p + m.length ≤ xs.size

section LiesFrom

variable {xs : Array α} {p : Nat} {m : Match}

theorem Match.LiesFrom.le_stop (h : m.LiesFrom xs p) : p ≤ m.stop := by
  rw [Match.stop, h.index_eq]
  exact Nat.le_add_right p m.length

theorem Match.LiesFrom.stop_le (h : m.LiesFrom xs p) : m.stop ≤ xs.size := by
  rw [Match.stop, h.index_eq]
  exact h.inside

theorem Match.liesFrom_span {q : Nat} (hpq : p ≤ q) (hq : q ≤ xs.size) :
    (Match.span p q).LiesFrom xs p where
  index_eq := rfl
  success := rfl
  inside := by
    simp only [Match.span]
    omega

end LiesFrom

variable [BEq α] {xs : Array α}

namespace Expression

def Orderly (xs : Array α) (e : Expression α) : Prop :=
  ∀ p, ∃ ms, e.Enumerates xs p ms ∧ ∀ m ∈ ms, m.LiesFrom xs p

variable {e : Expression α} {p : Nat} {ms : List Match}

theorem Orderly.enumerable (h : e.Orderly xs) : e.Enumerable xs :=
  fun p => (h p).imp fun _ hms => hms.1

theorem Orderly.liesFrom (h : e.Orderly xs) (hms : e.Enumerates xs p ms) :
    ∀ m ∈ ms, m.LiesFrom xs p := by
  obtain ⟨ns, hns, hlies⟩ := h p
  rwa [hms.unique hns]

theorem LeadsTo.orderly {stops : Nat → List Nat} (h : e.LeadsTo xs stops) : e.Orderly xs := by
  refine fun p => ⟨_, h.enumerates p, fun m hm => ?_⟩
  obtain ⟨q, hq, rfl⟩ := List.mem_map.mp hm
  obtain ⟨hpq, hqs⟩ := h.bounded p q hq
  exact Match.liesFrom_span hpq hqs

/-- Whatever the outcomes are that come from outside, the pattern leads on in the sequence. -/
theorem exists_leadsTo (hxs : xs.size ≤ maxSize) (he : e.isTested = true) :
    ∃ stops, e.LeadsTo xs stops := by
  induction e with
  | element c => exact ⟨_, leadsTo_of_checked hxs (settles_opened_element xs c)⟩
  | sequence es ih =>
    choose! stops hstops using fun e h => ih e h (isTested_sequence.mp he e h)
    exact ⟨_, leadsTo_sequence hstops⟩
  | alternation es ih =>
    choose! stops hstops using fun e h => ih e h (isTested_alternation.mp he e h)
    exact ⟨_, leadsTo_alternation hstops⟩
  | repetition e bounds kind ih =>
    obtain ⟨stops, h⟩ := ih (isTested_repetition.mp he)
    exact ⟨_, leadsTo_repetition h bounds kind⟩
  | lookAhead negative e ih =>
    obtain ⟨stops, h⟩ := ih (isTested_lookAhead.mp he)
    exact ⟨_, leadsTo_lookAhead h negative⟩
  | lookBehind negative e ih =>
    obtain ⟨stops, h⟩ := ih (isTested_lookBehind.mp he)
    exact ⟨_, leadsTo_lookBehind h negative⟩
  | anchor a => exact ⟨_, leadsTo_anchor xs a⟩
  | foreign c =>
    have hc := isTested_foreign.mp he
    exact ⟨_, leadsTo_of_checked hxs (settles_opened_foreign xs hc)⟩

theorem orderly_of_isTested (hxs : xs.size ≤ maxSize) (he : e.isTested = true) : e.Orderly xs := by
  obtain ⟨stops, h⟩ := exists_leadsTo hxs he
  exact h.orderly

theorem orderly_of_mem_inside (hxs : xs.size ≤ maxSize) (he : e.isTested = true) :
    ∀ f ∈ e.inside, f.Orderly xs :=
  fun _ hf => orderly_of_isTested hxs (everyNode_of_mem_inside he hf)

end Expression

def Cursor.DrawsFrom (xs : Array α) (p : Nat) (c : Cursor α) : Prop :=
  ∃ ms, c.Yields xs ms ∧ ∀ m ∈ ms, m.LiesFrom xs p

theorem Expression.Orderly.drawsFrom {e : Expression α} (h : e.Orderly xs) {p : Nat} {c : Cursor α}
    (hpass : e.Passes xs p c) : c.DrawsFrom xs p := by
  obtain ⟨ms, hms, hlies⟩ := h p
  obtain ⟨rest, hrest, hsuffix⟩ := hpass.yields hms
  exact ⟨rest, hrest, fun m hm => hlies m (hsuffix.subset hm)⟩

namespace Stacking

variable {β : Type} {k : Stacking α β} {es : List (Expression α)} {i : Nat} {stack : List β}
  {ends : List Nat}

theorem Trail.ordered (h : k.Trail xs i stack ends) (hk : k.OpensOnly es)
    (hes : ∀ e ∈ es, e.Orderly xs) :
    ends.Pairwise (· ≥ ·) ∧ ∀ q ∈ ends, i ≤ q ∧ q ≤ xs.size := by
  induction h with
  | nil => simp
  | @cons below ends top e ms m h hopens hms hpass hm haccept ih =>
    obtain ⟨hordered, hinside⟩ := ih
    have hlies := (hes e (hk _ _ _ hopens)).liesFrom hms m hm
    have hstart : i ≤ ends.headD i ∧ ∀ q ∈ ends, q ≤ ends.headD i := by
      cases ends with
      | nil => simp
      | cons stop ends => simpa [hinside] using (List.pairwise_cons.mp hordered).1
    have hle := hlies.le_stop
    refine ⟨List.pairwise_cons.mpr ⟨fun q hq => Nat.le_trans (hstart.2 q hq) hle, hordered⟩, ?_⟩
    rw [List.forall_mem_cons]
    exact ⟨⟨Nat.le_trans hstart.1 hle, hlies.stop_le⟩, hinside⟩

omit [BEq α] in
theorem append_singleton_eq_headD (ends : List Nat) (i : Nat) :
    ends ++ [i] = ends.headD i :: (ends ++ [i]).tail := by
  cases ends <;> rfl

theorem Trail.drawsFrom (h : k.Trail xs i stack ends) (hk : k.OpensOnly es)
    (hes : ∀ e ∈ es, e.Orderly xs) :
    List.Forall₂ (Cursor.DrawsFrom xs) (ends ++ [i]).tail (stack.map k.cursor) := by
  induction h with
  | nil => exact .nil
  | @cons below ends top e ms m h hopens hms hpass hm haccept ih =>
    rw [List.cons_append, List.tail_cons, append_singleton_eq_headD]
    exact .cons ((hes e (hk _ _ _ hopens)).drawsFrom hpass) ih

/-- The open children have been opened at positions that never go back, and never before the
first. -/
theorem Awaits.drawsFrom (h : k.Awaits xs i stack ends) (hk : k.OpensOnly es)
    (hes : ∀ e ∈ es, e.Orderly xs) :
    ∃ ps : List Nat, ps.Pairwise (· ≥ ·) ∧ (∀ p ∈ ps, i ≤ p) ∧
      List.Forall₂ (Cursor.DrawsFrom xs) ps (stack.map k.cursor) := by
  cases h with
  | nil => exact ⟨[], .nil, by simp, .nil⟩
  | @cons below _ top e ms h hopens hms hpass =>
    obtain ⟨hordered, hinside⟩ := h.ordered hk hes
    refine ⟨ends ++ [i], ?_, ?_, ?_⟩
    · rw [List.pairwise_append]
      exact ⟨hordered, List.pairwise_singleton _ i, by simpa using fun q hq => (hinside q hq).1⟩
    · simpa [or_imp, forall_and] using fun q hq => (hinside q hq).1
    · rw [append_singleton_eq_headD]
      exact .cons ((hes e (hk _ _ _ hopens)).drawsFrom hpass) (h.drawsFrom hk hes)

end Stacking

namespace Cursor

/-- What is kept in a cursor, and all that its open children still have to give, is where the ranges
of its matches are taken from or after that, and not before what is below. -/
structure NeverBack (xs : Array α) (c : Cursor α) : Prop where
  ends_ordered : c.ends.Pairwise (· ≥ ·)
  ends_inside : ∀ i ∈ c.index?, ∀ q ∈ c.ends, i ≤ q ∧ q ≤ xs.size
  opens_ordered : ∃ ps : List Nat, ps.Pairwise (· ≥ ·) ∧ (∀ i ∈ c.index?, ∀ p ∈ ps, i ≤ p) ∧
    List.Forall₂ (DrawsFrom xs) ps c.opens

variable {e : Expression α} {i : Nat} {c : Cursor α}

theorem NeverBack.of_nothing_open (hends : c.ends = []) (hopens : c.opens = []) :
    c.NeverBack xs :=
  ⟨by simp [hends], by simp [hends], [], by simp [hopens]⟩

theorem NeverBack.of_index_eq (hindex : c.index? = some i)
    (hends : c.ends.Pairwise (· ≥ ·) ∧ ∀ q ∈ c.ends, i ≤ q ∧ q ≤ xs.size)
    (hopens : ∃ ps : List Nat, ps.Pairwise (· ≥ ·) ∧ (∀ p ∈ ps, i ≤ p) ∧
      List.Forall₂ (DrawsFrom xs) ps c.opens) : c.NeverBack xs := by
  refine ⟨hends.1, ?_, ?_⟩
  · simpa only [hindex, Option.mem_some, forall_eq'] using hends.2
  · simpa only [hindex, Option.mem_some, forall_eq'] using hopens

theorem Coherent.neverBack (he : ∀ d ∈ e.inside, d.Orderly xs) (h : Coherent xs e i c) :
    c.NeverBack xs := by
  have hnil : ([] : List Nat).Pairwise (· ≥ ·) ∧ ∀ q ∈ [], i ≤ q ∧ q ≤ xs.size :=
    ⟨.nil, by simp⟩
  cases h with
  | ready m | candidates cs | lazyFresh | greedyEnd => exact .of_nothing_open rfl rfl
  | sequence h => exact .of_index_eq rfl hnil (h.drawsFrom (parts_opensOnly _) he)
  | @alternation _ _ current rest _ hrest h =>
    have hopens := h.drawsFrom (option_opensOnly _) he
    rw [option, List.map_id] at hopens
    exact .of_index_eq rfl hnil hopens
  | lazy h => exact .of_index_eq rfl hnil (h.drawsFrom (rounds_opensOnly _) he)
  | greedyDeepen h | greedyRetreat h =>
    have hopens := h.awaits.drawsFrom (rounds_opensOnly _) he
    exact .of_index_eq rfl (h.ordered (rounds_opensOnly _) he) hopens
  | greedyDraw h =>
    have hopens := h.drawsFrom (rounds_opensOnly _) he
    exact .of_index_eq rfl (h.draws.1.ordered (rounds_opensOnly _) he) hopens

theorem Coherent.of_isTested (hxs : xs.size ≤ maxSize) (he : e.isTested = true)
    (h : e.Passes xs i c) : Coherent xs e i c :=
  .of_passes (fun f hf => (Expression.orderly_of_mem_inside hxs he f hf).enumerable) h

theorem Nests.exists_passes (hxs : xs.size ≤ maxSize) {d : Cursor α} (hd : c.Nests d)
    (he : e.isTested = true) (h : e.Passes xs i c) :
    ∃ (f : Expression α) (p : Nat), f.isTested = true ∧ f.Passes xs p d := by
  induction hd with
  | self => exact ⟨e, i, he, h⟩
  | child hd hb ih =>
    obtain ⟨f, p, hf, hpass⟩ := ih
    obtain ⟨g, hg, q, hpass⟩ := (Coherent.of_isTested hxs hf hpass).opens_pass _ hb
    exact ⟨g, q, Expression.everyNode_of_mem_inside hf hg, hpass⟩

end Cursor

namespace Expression

variable {e : Expression α}

/-- The starts that a lookbehind tries are those from which a length that is told leads to the
position. -/
theorem lookBehind_succeeds_iff_length_leads_back (he : e.Enumerable xs) (negative : Bool)
    (i : Nat) :
    ∃ success, Settles xs (fun fuel => (lookBehind negative e).matchAt? fuel i)
        (some (.zeroWidth success)) ∧
      (success = true ↔ i ≤ xs.size ∧ e.isPlaceable = true ∧
        ((∃ q n, q + n = i ∧ n ∈ (e.lengths i).toList ∧
          ∃ ms, e.Enumerates xs q ms ∧ ∃ m ∈ ms, m.length = n) ↔ negative = false)) := by
  choose ms hms using he
  have hstart : ((e.lengths i).toList.any fun n =>
      n ≤ i && (ms (i - n)).any (·.length == n)) = true ↔
      ∃ q n, q + n = i ∧ n ∈ (e.lengths i).toList ∧
        ∃ ms, e.Enumerates xs q ms ∧ ∃ m ∈ ms, m.length = n := by
    simp only [List.any_eq_true, Bool.and_eq_true, decide_eq_true_eq, beq_iff_eq]
    constructor
    · rintro ⟨n, hn, hle, m, hm, hlen⟩
      exact ⟨i - n, n, Nat.sub_add_cancel hle, hn, _, hms (i - n), m, hm, hlen⟩
    · rintro ⟨q, n, rfl, hn, ns, hns, m, hm, hlen⟩
      refine ⟨n, hn, Nat.le_add_left n q, m, ?_, hlen⟩
      rwa [Nat.add_sub_cancel, (hms q).unique hns]
  refine ⟨_, (Children.settles_assertBehind hms negative).bind (settles_pure _), ?_⟩
  rw [← hstart, Bool.and_eq_true, Bool.and_eq_true, decide_eq_true_eq]
  refine and_congr_right fun _ => and_congr_right fun _ => ?_
  generalize (e.lengths i).toList.any _ = found
  cases found <;> cases negative <;> decide

/-- Whatever classes and foreign expressions decide by themselves, every match is a success that
starts at the position and ends in the sequence, and past the end there is none. So what is kept on
the way never goes back before the position, and a lookbehind never looks for a start before the
sequence. -/
theorem matches_lie_in_sequence (he : e.isTested = true) (xs : Array α) (hxs : xs.size ≤ maxSize)
    (i : Nat) :
    (∃ ms, e.Enumerates xs i ms ∧ (∀ m ∈ ms, m.LiesFrom xs i) ∧ (xs.size < i → ms = [])) ∧
    (∀ c, e.Passes xs i c → ∀ d, c.Nests d → d.NeverBack xs) ∧
    ∀ negative, ∃ success, Settles xs (fun fuel => (lookBehind negative e).matchAt? fuel i)
        (some (.zeroWidth success)) ∧
      (success = true ↔ i ≤ xs.size ∧ e.isPlaceable = true ∧
        ((∃ q n, q + n = i ∧ n ∈ (e.lengths i).toList ∧
          ∃ ms, e.Enumerates xs q ms ∧ ∃ m ∈ ms, m.length = n) ↔ negative = false)) := by
  have horderly := orderly_of_isTested hxs he
  refine ⟨?_, fun c hc d hd => ?_, fun negative => ?_⟩
  · obtain ⟨ms, hms, hlies⟩ := horderly i
    refine ⟨ms, hms, hlies, fun hi => List.eq_nil_iff_forall_not_mem.mpr fun m hm => ?_⟩
    have hin := (hlies m hm).inside
    omega
  · obtain ⟨f, p, hf, hpass⟩ := hd.exists_passes hxs he hc
    exact (Cursor.Coherent.of_isTested hxs hf hpass).neverBack (orderly_of_mem_inside hxs hf)
  · exact lookBehind_succeeds_iff_length_leads_back horderly.enumerable negative i

/-- Rounds of any length that is claimed, and of two elements wherever that is. -/
theorem matches_lie_in_sequence_claimed_lengths :
    let wild : Expression Nat := foreign
      { matchAt := Foreign.fixed maxSize, placement := some ⟨true, false, fun _ => [2, maxSize]⟩ }
    let pair : Expression Nat := element (.probing "pair" (fun _ => true) (Foreign.fixed 2))
    let e := atLeast (alternation [wild, pair, value 3]) 1
    (∃ ms, e.Enumerates #[1, 2, 3] 0 ms ∧ (∀ m ∈ ms, m.LiesFrom #[1, 2, 3] 0) ∧
      (3 < 0 → ms = [])) ∧
    (∀ c, e.Passes #[1, 2, 3] 0 c → ∀ d, c.Nests d → d.NeverBack #[1, 2, 3]) ∧
    ∃ success, Settles #[1, 2, 3] (fun fuel => (lookBehind true e).matchAt? fuel 0)
      (some (.zeroWidth success)) := by
  intro wild pair e
  have h := matches_lie_in_sequence (e := e) (by decide) #[1, 2, 3] (by decide) 0
  exact ⟨h.1, h.2.1, (h.2.2 true).imp fun _ hs => hs.1⟩

end Expression

end SeqPattern
