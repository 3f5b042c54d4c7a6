import SeqPattern.Proofs.DrawnWithin
import SeqPattern.Proofs.Windows

namespace SeqPattern

open Search

variable {α : Type}

namespace Query

variable {β γ : Type} {source : LazySource α}

theorem drive_mapM_snd {f : β → Query α γ} {bs : List β}
    (h : ∀ b ∈ bs, ((f b).drive source).2 = source) : ((bs.mapM f).drive source).2 = source := by
  induction bs with
  | nil => rfl
  | cons b bs ih =>
    rw [List.forall_mem_cons] at h
    simp only [List.mapM_cons, drive_bind, drive_pure, h.1, ih h.2]

end Query

section Reading

variable {source : LazySource α}

theorem Window.drive_readFrom_snd {w : Window} (hw : w.index + w.count ≤ source.cache.size)
    (n i : Nat) (before : List α) : ((w.readFrom n i before).drive source).2 = source := by
  induction n generalizing i before with
  | zero => rfl
  | succ n ih =>
    have hget : ((w.get? i).drive source).2 = source := by
      rw [get?]
      split
      · rw [Query.drive_get?_snd, LazySource.ensure_of_lt (by omega)]
      · rfl
    rw [readFrom, Query.drive_bind, hget]
    cases ((w.get? i).drive source).1 with
    | none => rfl
    | some a => exact ih (i + 1) (a :: before)

theorem Reply.drive_inFull {r : Reply α} (h : ∀ m ∈ r.bare, m.stop ≤ source.cache.size) :
    ∃ items, r.inFull.drive source = (⟨r, items⟩, source) := by
  have hread : ((r.bare.mapM Match.items).drive source).2 = source :=
    Query.drive_mapM_snd fun m hm =>
      Window.drive_readFrom_snd (w := m.window) (h m hm) m.length 0 []
  rw [inFull, Query.drive_bind, hread]
  exact ⟨_, rfl⟩

end Reading

variable [BEq α] {xs : Array α}

/-- Some enumeration of a tested pattern has come to the cursor. -/
def Cursor.OnCourse (xs : Array α) (c : Cursor α) : Prop :=
  ∃ (e : Expression α) (i : Nat), e.isTested = true ∧ e.Passes xs i c

namespace Cursor.OnCourse

variable {c d : Cursor α} {fuel : Nat} (h : c.OnCourse xs)

theorem of_start {e : Expression α} {i : Nat} (he : e.isTested = true)
    (hc : (start fuel e i).eval xs = some c) : c.OnCourse xs :=
  ⟨e, i, he, .opened (.of_monotone (monotone_start e i) hc)⟩

include h

theorem next {m : Option Match} (hnext : (Cursor.next fuel c).eval xs = some (m, d)) :
    d.OnCourse xs := by
  obtain ⟨e, i, he, hpass⟩ := h
  exact ⟨e, i, he, hpass.next hnext⟩

theorem stop_le_of_next (hxs : xs.size ≤ maxSize) {m : Match}
    (hnext : (Cursor.next fuel c).eval xs = some (some m, d)) : m.stop ≤ xs.size := by
  obtain ⟨e, i, he, hpass⟩ := h
  obtain ⟨ms, hms, hlies⟩ := (Expression.orderly_of_isTested hxs he).drawsFrom hpass
  obtain ⟨d', hd'⟩ := hms.settles_next
  have hfirst := congrArg Prod.fst (hd'.unique (.of_monotone (monotone_next c) hnext))
  exact (hlies m (List.mem_of_head? hfirst)).stop_le

theorem stop_le_of_takeAfter (hxs : xs.size ≤ maxSize) {k : Nat} {before ms : List Match}
    {complete : Bool} (hbefore : ∀ m ∈ before, m.stop ≤ xs.size)
    (htake : (takeAfter fuel k before c).eval xs = some (ms, complete, d)) :
    ∀ m ∈ ms, m.stop ≤ xs.size := by
  induction k generalizing before c with
  | zero =>
    cases htake
    simpa using hbefore
  | succ k ih =>
    rw [takeAfter, eval_bind, Option.bind_eq_some_iff] at htake
    obtain ⟨⟨m, c'⟩, hnext, hrest⟩ := htake
    cases m with
    | none =>
      cases hrest
      simpa using hbefore
    | some m =>
      have hm := h.stop_le_of_next hxs hnext
      exact ih (h.next hnext) (List.forall_mem_cons.mpr ⟨hm, hbefore⟩) hrest

end Cursor.OnCourse

theorem Scan.stop_le_of_take (hxs : xs.size ≤ maxSize) {e : Expression α}
    (he : e.isTested = true) {fuel p limit : Nat} {ms : List Match} {complete : Bool} {s : Scan α}
    (h : (take fuel limit ((start e p).eval xs)).eval xs = some (.ok (ms, complete), s)) :
    ∀ m ∈ ms, m.stop ≤ xs.size := by
  obtain ⟨found, hin, -, htake, -⟩ := Expression.exists_searched hxs he p
  obtain ⟨t, ht⟩ := htake limit
  have hmono : Monotone fun fuel => take fuel limit ((start e p).eval xs) :=
    fun _ _ hle => takeAfter_mono limit [] _ hle
  cases ((settles_ask xs (start e p)).of_bind ht).unique (.of_monotone hmono h)
  exact fun m hm => hin m (List.mem_of_mem_take hm)

namespace Session

variable {fuel : Nat} {s : Session α} {e : Expression α}

def OnCourse (xs : Array α) (s : Session α) : Prop := ∀ c ∈ s.cursors, c.OnCourse xs

/-- Every enumeration that is open stays on its course, and the matches that are given without their
elements lie in the sequence. -/
theorem OnCourse.serve (hxs : xs.size ≤ maxSize) (hs : s.OnCourse xs) (he : e.isTested = true)
    (request : Request) : ∀ r, (s.serve fuel e request).eval xs = some r →
      r.2.OnCourse xs ∧ ∀ m ∈ r.1.bare, m.stop ≤ xs.size := by
  cases request with
  | findAll start =>
    refine forall_eval_bind fun found _ => ?_
    cases found with
    | ok c =>
      exact forall_eval_ask_bind (forall_eval_pure ⟨hs, by simp [Reply.ofCollection, Reply.bare]⟩)
    | error f => exact forall_eval_pure ⟨hs, by simp [Reply.bare]⟩
  | find start =>
    refine forall_eval_bind fun found _ => ?_
    cases found with
    | ok m =>
      exact forall_eval_ask_bind (forall_eval_pure ⟨hs, by simp [Reply.ofMatch, Reply.bare]⟩)
    | error f => exact forall_eval_pure ⟨hs, by simp [Reply.bare]⟩
  | scan start limit =>
    refine forall_eval_ask_bind (forall_eval_bind fun found htake => ?_)
    obtain ⟨_ | ⟨ms, complete⟩, s'⟩ := found
    · exact forall_eval_pure ⟨hs, by simp [Reply.bare]⟩
    · exact forall_eval_pure ⟨hs, Scan.stop_le_of_take hxs he htake⟩
  | openScan start =>
    exact forall_eval_ask_bind (forall_eval_pure ⟨hs, by simp [Reply.bare]⟩)
  | nextMatch handle =>
    rw [Session.serve]
    cases s.scans[handle]? with
    | none => exact forall_eval_pure ⟨hs, by simp [Reply.bare]⟩
    | some scan =>
      refine forall_eval_bind fun found _ => ?_
      obtain ⟨_ | m, s'⟩ := found
      · exact forall_eval_pure ⟨hs, by simp [Reply.bare]⟩
      · refine forall_eval_ask_bind (forall_eval_pure ⟨hs, ?_⟩)
        cases m <;> simp [Reply.ofMatch?, Reply.ofMatch, Reply.bare]
  | occurs =>
    refine forall_eval_bind fun found _ => ?_
    cases found <;> exact forall_eval_pure ⟨hs, by simp [Reply.bare]⟩
  | occursAt index =>
    exact forall_eval_bind fun found _ => forall_eval_pure ⟨hs, by simp [Reply.bare]⟩
  | candidates index limit =>
    refine forall_eval_bind fun c hstart => forall_eval_bind fun found htake => ?_
    exact forall_eval_pure
      ⟨hs, (Cursor.OnCourse.of_start he hstart).stop_le_of_takeAfter hxs (by simp) htake⟩
  | openCandidates index =>
    refine forall_eval_bind fun c hstart => forall_eval_pure ⟨fun d hd => ?_, by simp [Reply.bare]⟩
    rcases Array.mem_push.mp hd with hd | rfl
    · exact hs d hd
    · exact .of_start he hstart
  | nextCandidate handle =>
    rw [Session.serve]
    cases hc : s.cursors[handle]? with
    | none => exact forall_eval_pure ⟨hs, by simp [Reply.bare]⟩
    | some c =>
      have hcourse := hs c (Array.mem_of_getElem? hc)
      refine forall_eval_bind fun found hnext => ?_
      obtain ⟨m, d⟩ := found
      have hcursors : OnCourse xs { s with cursors := s.cursors.setIfInBounds handle d } := by
        intro b hb
        rcases Array.mem_or_eq_of_mem_setIfInBounds hb with hb | rfl
        · exact hs b hb
        · exact hcourse.next hnext
      cases m with
      | none => exact forall_eval_pure ⟨hcursors, by simp [Reply.bare]⟩
      | some m =>
        exact forall_eval_pure
          ⟨hcursors, by simpa [Reply.bare] using hcourse.stop_le_of_next hxs hnext⟩
  | matchAt index =>
    refine forall_eval_bind fun found _ => ?_
    cases found <;> exact forall_eval_pure ⟨hs, by simp [Reply.bare]⟩

theorem exists_drive_inFull {steps : List (Expression α × Request)}
    (hsteps : ∀ step ∈ steps, step.1.isTested = true) {t : Session α} {replies : List (Reply α)}
    {source later : LazySource α}
    (hs : ∀ xs : Array α, xs.size ≤ maxSize → source.AgreesWith xs → s.OnCourse xs)
    (h : (serveAll pure fuel s steps).run.drive source = (some (replies, t), later))
    (hsize : later.cache.size ≤ maxSize) :
    ∃ full : List (FullReply α), full.map (·.reply) = replies ∧
      (serveAll Reply.inFull fuel s steps).run.drive source = (some (full, t), later) := by
  induction steps generalizing s source replies with
  | nil =>
    cases h
    exact ⟨[], rfl, rfl⟩
  | cons step steps ih =>
    rw [List.forall_mem_cons] at hsteps
    rw [serveAll, drive_bind_eq_some_iff] at h
    obtain ⟨⟨r, s'⟩, mid, hserve, h⟩ := h
    rw [drive_bind_eq_some_iff] at h
    obtain ⟨_, _, hr, h⟩ := h
    cases hr
    rw [drive_bind_eq_some_iff] at h
    obtain ⟨⟨rest, t'⟩, last, hrest, h⟩ := h
    cases h
    have hprefix := Query.cache_prefix_drive (serveAll pure fuel s' steps).run mid
    rw [hrest] at hprefix
    have hmid : mid.cache.size ≤ maxSize := Nat.le_trans (by simpa using hprefix.length_le) hsize
    have hstep (xs : Array α) (hxs : xs.size ≤ maxSize) (hagrees : mid.AgreesWith xs) :
        s'.OnCourse xs ∧ ∀ m ∈ r.bare, m.stop ≤ xs.size := by
      have hdrive : ((s.serve fuel step.1 step.2).run.drive source).2.AgreesWith xs := by
        rwa [hserve]
      have heval := Query.eval_eq_of_agreesWith _ hdrive
      rw [hserve] at heval
      exact (hs xs hxs heval.1).serve hxs hsteps.1 step.2 _ heval.2
    -- What has been drawn by now is itself such a sequence.
    obtain ⟨items, hread⟩ := Reply.drive_inFull (hstep _ hmid mid.agreesWith_cache).2
    obtain ⟨full, hmap, hfull⟩ := ih hsteps.2 (fun xs hxs hagrees => (hstep xs hxs hagrees).1) hrest
    refine ⟨⟨r, items⟩ :: full, by rw [List.map_cons, hmap], ?_⟩
    rw [serveAll, drive_bind_eq_some_iff]
    refine ⟨_, mid, hserve, ?_⟩
    rw [drive_bind_eq_some_iff]
    refine ⟨_, mid, by rw [drive_ask, hread], ?_⟩
    rw [drive_bind_eq_some_iff]
    exact ⟨_, later, hfull, rfl⟩

theorem settles_serveAll {β : Type} {read : Reply α → Query α β}
    {steps : List (Expression α × Request)} {t : Session α} {shown : List β}
    {source later : LazySource α}
    (h : (serveAll read fuel s steps).run.drive source = (some (shown, t), later))
    (hxs : later.AgreesWith xs) : Settles xs (fun fuel => serveAll read fuel s steps) (shown, t) := by
  have hdrive : ((serveAll read fuel s steps).run.drive source).2.AgreesWith xs := by rwa [h]
  have heval := (Query.eval_eq_of_agreesWith _ hdrive).2
  rw [h] at heval
  exact Settles.of_monotone (monotone_serveAll read s steps) heval

/-- Searches and enumerations on one sequence that is drawn on demand, however they take turns, are
answered, and leave open what they leave open, as on every whole sequence that agrees with what has
been drawn in the end: one that begins with the elements drawn, and has no other if the end has been
reported. The elements of all matches are the same as well, and to read them as soon as the matches
are given draws nothing. -/
theorem replies_eq_of_agreesWith {steps : List (Expression α × Request)}
    (hsteps : ∀ step ∈ steps, step.1.isTested = true) {t : Session α} {replies : List (Reply α)}
    {source later : LazySource α}
    (h : (serveAll pure fuel {} steps).run.drive source = (some (replies, t), later))
    (hsize : later.cache.size ≤ maxSize) (hxs : later.AgreesWith xs) :
    Settles xs (fun fuel => serveAll pure fuel {} steps) (replies, t) ∧
    ∃ full : List (FullReply α), full.map (·.reply) = replies ∧
      (serveAll Reply.inFull fuel {} steps).run.drive source = (some (full, t), later) ∧
      Settles xs (fun fuel => serveAll Reply.inFull fuel {} steps) (full, t) := by
  have hs (ys : Array α) : OnCourse ys {} := fun c hc => absurd hc (Array.not_mem_empty c)
  obtain ⟨full, hmap, hfull⟩ := exists_drive_inFull hsteps (fun ys _ _ => hs ys) h hsize
  exact ⟨settles_serveAll h hxs, full, hmap, hfull, settles_serveAll hfull hxs⟩

/-- A search over the numbers 0, 1, 0, 1 and so on and an enumeration are left open while another
search runs. Only six of the numbers are drawn. -/
theorem replies_eq_of_agreesWith_endless :
    let steps : List (Expression Nat × Request) :=
      [(.sequence [.value 1, .lookAhead false (.value 0)], .openScan 0), (.any, .nextMatch 0),
        (.alternation [.values [1, 0], .any], .openCandidates 1), (.any, .nextCandidate 0),
        (.oneOrMore .any .lazy, .find 2), (.any, .nextMatch 0), (.any, .nextCandidate 0),
        (.optional (.value 0), .candidates 2 3), (.any, .nextMatch 1)]
    let full : List (FullReply Nat) :=
      [⟨.opened 0, []⟩, ⟨.found ⟨1, 1, true⟩ [1], []⟩,
        ⟨.opened 0, []⟩, ⟨.candidate ⟨1, 2, true⟩, [[1, 0]]⟩,
        ⟨.found ⟨2, 1, true⟩ [0], []⟩, ⟨.found ⟨3, 1, true⟩ [1], []⟩,
        ⟨.candidate ⟨1, 1, true⟩, [[1]]⟩,
        ⟨.pulled [⟨2, 1, true⟩, ⟨2, 0, true⟩] true, [[0], []]⟩, ⟨.unknown, []⟩]
    let t : Session Nat :=
      { scans := #[⟨.sequence [.value 1, .lookAhead false (.value 0)], 4, false⟩],
        cursors := #[.alternation ⟨1, some (.ready none), []⟩] }
    Settles #[0, 1, 0, 1, 0, 1, 7] (fun fuel => serveAll pure fuel {} steps)
      (full.map (·.reply), t) ∧
    Settles #[0, 1, 0, 1, 0, 1, 7] (fun fuel => serveAll Reply.inFull fuel {} steps) (full, t) := by
  intro steps full t
  let drawn : LazySource Nat :=
    { feed := fun i => some (i % 2), cache := #[0, 1, 0, 1, 0, 1], polls := 6 }
  have hplain : (serveAll pure 20 {} steps).run.drive { feed := drawn.feed } =
      (some (full.map (·.reply), t), drawn) := by cbv
  have hread : (serveAll Reply.inFull 20 {} steps).run.drive { feed := drawn.feed } =
      (some (full, t), drawn) := by cbv
  have hagrees : drawn.AgreesWith #[0, 1, 0, 1, 0, 1, 7] := ⟨by decide, by decide⟩
  obtain ⟨hreplies, shown, -, hshown, hfull⟩ :=
    replies_eq_of_agreesWith (by decide) hplain (by decide) hagrees
  obtain rfl : shown = full := by
    have hsame := hshown.symm.trans hread
    exact (Prod.mk.inj (Option.some.inj (Prod.mk.inj hsame).1)).1
  exact ⟨hreplies, hfull⟩

end Session

end SeqPattern
