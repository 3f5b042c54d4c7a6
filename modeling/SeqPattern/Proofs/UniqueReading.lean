import SeqPattern.Meaning.Phrase

namespace SeqPattern

/-- Two properties that hold of what is built from pieces of which they hold. -/
theorem Term.induct {P : Term → Prop} {Q : Phrase → Prop} (atom : ∀ a, P (.atom a))
    (not : ∀ t, P t → P (.not t)) (listing : ∀ ts, (∀ t ∈ ts, P t) → P (.listing ts))
    (group : ∀ ps, (∀ p ∈ ps, Q p) → P (.group ps))
    (call : ∀ h p ns, Q p → P (.call h p ns))
    (mk : ∀ t ts, P t → (∀ u ∈ ts, P u) → Q (.mk t ts)) : (∀ t, P t) ∧ ∀ p, Q p := by
  have nil {α : Type} {R : α → Prop} : ∀ a ∈ ([] : List α), R a := by simp
  have cons {α : Type} {R : α → Prop} (a : α) (as : List α) (ha : R a) (has : ∀ b ∈ as, R b) :
      ∀ b ∈ a :: as, R b := List.forall_mem_cons.mpr ⟨ha, has⟩
  exact ⟨@Term.rec P Q (fun ts => ∀ t ∈ ts, P t) (fun ps => ∀ p ∈ ps, Q p) atom not listing group
      call mk nil cons nil cons,
    @Phrase.rec P Q (fun ts => ∀ t ∈ ts, P t) (fun ps => ∀ p ∈ ps, Q p) atom not listing group
      call mk nil cons nil cons⟩

section Words

def isWordChar (c : Char) : Bool := c.isAlphanum || c == '_' || c == '-'

theorem takeWhile_append_of_word {p : Char → Bool} {w r : List Char} (hw : ∀ c ∈ w, p c = true)
    (hr : ∀ c ∈ r.head?, p c = false) : (w ++ r).takeWhile p = w := by
  rw [List.takeWhile_append_of_pos hw]
  cases r with
  | nil => simp
  | cons c r => simp [hr c rfl]

/-- Words end where the first other character stands. -/
theorem append_inj_of_words {p : Char → Bool} {v w r s : List Char} (hv : ∀ c ∈ v, p c = true)
    (hw : ∀ c ∈ w, p c = true) (hr : ∀ c ∈ r.head?, p c = false) (hs : ∀ c ∈ s.head?, p c = false)
    (h : v ++ r = w ++ s) : v = w ∧ r = s := by
  have hwords : v = w := by
    rw [← takeWhile_append_of_word hv hr, h, takeWhile_append_of_word hw hs]
  subst hwords
  exact ⟨rfl, List.append_cancel_left h⟩

theorem isWordChar_of_isDigit {c : Char} (h : c.isDigit = true) : isWordChar c = true := by
  simp [isWordChar, Char.isAlphanum, h]

theorem isDigit_of_mem_toString {n : Nat} {c : Char} (h : c ∈ (toString n).toList) :
    c.isDigit = true := by
  rw [Nat.toString_eq_repr, Nat.toList_repr] at h
  exact Nat.isDigit_of_mem_toDigits (by decide) (by decide) h

theorem toString_nat_inj {m n : Nat} (h : (toString m).toList = (toString n).toList) : m = n := by
  simp only [Nat.toString_eq_repr, Nat.toList_repr] at h
  rw [← Nat.ofDigitChars_ten_toDigits (n := m), h, Nat.ofDigitChars_ten_toDigits]

theorem toList_toString_int (a : Int) : (toString a).toList =
    if 0 ≤ a then (toString a.toNat).toList else '-' :: (toString (-a).toNat).toList := by
  rw [Int.toString_eq_repr, Int.repr_eq_if]
  split <;> simp [Nat.toString_eq_repr]

theorem toString_int_inj {a b : Int} (h : (toString a).toList = (toString b).toList) : a = b := by
  have hsign {m n : Nat} (h : (toString m).toList = '-' :: (toString n).toList) : False := by
    have hmem : '-' ∈ (toString m).toList := by rw [h]; exact List.mem_cons_self
    exact absurd (isDigit_of_mem_toString hmem) (by decide)
  rw [toList_toString_int, toList_toString_int b] at h
  by_cases ha : 0 ≤ a <;> by_cases hb : 0 ≤ b <;>
    simp only [ha, hb, ↓reduceIte] at h
  · have hnat := toString_nat_inj h
    omega
  · exact (hsign h).elim
  · exact (hsign h.symm).elim
  · have hnat := toString_nat_inj (List.cons.inj h).2
    omega

theorem isDigit_or_eq_of_mem_toString {a : Int} {c : Char} (h : c ∈ (toString a).toList) :
    c.isDigit = true ∨ c = '-' := by
  rw [toList_toString_int] at h
  split at h
  · exact Or.inl (isDigit_of_mem_toString h)
  · exact (List.mem_cons.mp h).symm.imp_left isDigit_of_mem_toString

theorem Atom.isWordChar_of_mem {a : Atom} {c : Char} (h : c ∈ a.chars) : isWordChar c = true := by
  cases a with
  | any => exact List.all_eq_true.mp (show any.chars.all isWordChar = true by decide) c h
  | anchor a =>
    have hword : (anchor a).chars.all isWordChar = true := by cases a <;> decide
    exact List.all_eq_true.mp hword c h
  | number n =>
    rcases isDigit_or_eq_of_mem_toString h with hc | rfl
    · exact isWordChar_of_isDigit hc
    · decide

theorem Atom.chars_inj {a b : Atom} (h : a.chars = b.chars) : a = b := by
  have hletter {n : Int} {b : Atom} (h : (number n).chars = b.chars)
      (hb : b.chars.any (fun c => !c.isDigit && c != '-') = true) : False := by
    obtain ⟨c, hc, hletter⟩ := List.any_eq_true.mp hb
    rw [← h] at hc
    rcases isDigit_or_eq_of_mem_toString hc with hdigit | rfl
    · simp [hdigit] at hletter
    · cases hletter
  cases a with
  | number m =>
    cases b with
    | number n => rw [toString_int_inj h]
    | any => exact (hletter h (by decide)).elim
    | anchor a => exact (hletter h (by cases a <;> decide)).elim
  | any =>
    cases b with
    | number n => exact (hletter h.symm (by decide)).elim
    | any => rfl
    | anchor a => cases a <;> exact absurd h (by decide)
  | anchor a =>
    cases b with
    | number n => exact (hletter h.symm (by cases a <;> decide)).elim
    | any => cases a <;> exact absurd h (by decide)
    | anchor b => cases a <;> cases b <;> first | rfl | exact absurd h (by decide)

theorem Head.isWordChar_of_mem (h : Head) : ∀ c ∈ h.name.toList, isWordChar c = true := by
  apply List.all_eq_true.mp
  cases h with
  | exactly => decide
  | before negative | after negative => cases negative <;> decide
  | between kind | atLeast kind | zeroOrMore kind | oneOrMore kind | optional kind =>
    cases kind <;> decide

def Head.all : List Head :=
  [true, false].flatMap (fun negative => [before negative, after negative]) ++ exactly ::
    [RepetitionKind.lazy, .greedy].flatMap fun kind =>
      [between kind, atLeast kind, zeroOrMore kind, oneOrMore kind, optional kind]

theorem Head.mem_all (h : Head) : h ∈ all := by
  cases h with
  | exactly => decide
  | before negative | after negative => cases negative <;> decide
  | between kind | atLeast kind | zeroOrMore kind | oneOrMore kind | optional kind =>
    cases kind <;> decide

theorem Head.name_inj {g h : Head} (heq : g.name.toList = h.name.toList) : g = h :=
  (show ∀ g ∈ all, ∀ h ∈ all, g.name.toList = h.name.toList → g = h by decide)
    g g.mem_all h h.mem_all heq

theorem toString_nat_ne_nil (n : Nat) : (toString n).toList ≠ [] := by
  rw [Nat.toString_eq_repr, Nat.toList_repr]
  exact Nat.toDigits_ne_nil

theorem Atom.chars_ne_nil (a : Atom) : a.chars ≠ [] := by
  cases a with
  | any => decide
  | anchor a => cases a <;> decide
  | number n =>
    rw [chars, toList_toString_int]
    split
    · exact toString_nat_ne_nil _
    · exact List.cons_ne_nil _ _

theorem Head.name_ne_nil (h : Head) : h.name.toList ≠ [] :=
  (show ∀ h ∈ all, h.name.toList ≠ [] by decide) h h.mem_all

end Words

section Lists

def EndsBefore (stops : List Char) (r : List Char) : Prop := ∀ c ∈ r.head?, c ∈ stops

theorem endsBefore_nil {stops : List Char} : EndsBefore stops [] := by simp [EndsBefore]

theorem endsBefore_cons {stops : List Char} {c : Char} {r : List Char} :
    EndsBefore stops (c :: r) ↔ c ∈ stops := by
  simp [EndsBefore]

theorem EndsBefore.mono {stops more : List Char} {r : List Char} (h : EndsBefore stops r)
    (hsub : stops ⊆ more) : EndsBefore more r :=
  fun c hc => hsub (h c hc)

/-- Among all texts that begin so, and go on with one of the characters after it, this one alone
tells what it is. -/
def ReadsOff {β : Type} (chars : β → List Char) (stops : List Char) (b : β) : Prop :=
  ∀ b' r s, EndsBefore stops r → EndsBefore stops s → chars b ++ r = chars b' ++ s → b = b' ∧ r = s

variable {β : Type} {chars : β → List Char} {stops outer sep : List Char} {mark : Char}

theorem endsBefore_preceded (hmark : mark ∈ stops) {r : List Char} (hr : EndsBefore stops r)
    (bs : List β) : EndsBefore stops ((bs.map chars).flatMap (mark :: sep ++ ·) ++ r) := by
  cases bs with
  | nil => exact hr
  | cons b bs => exact endsBefore_cons.mpr hmark

theorem readsOff_preceded (hmark : mark ∈ stops) (houter : outer ⊆ stops) (hno : mark ∉ outer)
    {bs : List β} (hbs : ∀ b ∈ bs, ReadsOff chars stops b) :
    ReadsOff (fun bs => (bs.map chars).flatMap (mark :: sep ++ ·)) outer bs := by
  have hpast {bs : List β} {r : List Char} (hr : EndsBefore outer r) :
      EndsBefore stops ((bs.map chars).flatMap (mark :: sep ++ ·) ++ r) :=
    endsBefore_preceded hmark (hr.mono houter) bs
  have hover {r s : List Char} (hr : EndsBefore outer r) (h : r = mark :: s) : False :=
    hno (endsBefore_cons.mp (h ▸ hr))
  induction bs with
  | nil =>
    intro bs r s hr hs h
    cases bs with
    | nil => exact ⟨rfl, h⟩
    | cons b bs => exact (hover hr h).elim
  | cons a as ih =>
    intro bs r s hr hs h
    cases bs with
    | nil => exact (hover hs h.symm).elim
    | cons b bs =>
      rw [List.forall_mem_cons] at hbs
      simp only [List.map_cons, List.flatMap_cons, List.append_assoc, List.cons_append,
        List.cons.injEq, true_and] at h
      obtain ⟨rfl, hrest⟩ := hbs.1 b _ _ (hpast hr) (hpast hs) (List.append_cancel_left h)
      obtain ⟨rfl, hrs⟩ := ih hbs.2 bs r s hr hs hrest
      exact ⟨rfl, hrs⟩

theorem separated_inj {close : Char} (hmark : mark ∈ stops) (hclose : close ∈ stops)
    (hne : close ≠ mark) (hopen : ∀ b, ¬ EndsBefore stops (chars b)) {as bs : List β}
    (has : ∀ a ∈ as, ReadsOff chars stops a) {r s : List Char}
    (h : separated (mark :: sep) (as.map chars) ++ close :: r =
      separated (mark :: sep) (bs.map chars) ++ close :: s) : as = bs ∧ r = s := by
  have hpast {bs : List β} {r : List Char} :
      EndsBefore stops ((bs.map chars).flatMap (mark :: sep ++ ·) ++ close :: r) :=
    endsBefore_preceded hmark (endsBefore_cons.mpr hclose) bs
  -- Where one list has ended the other has too, as nothing begins with the closing bracket.
  have hover {b : β} {t u : List Char} (h : close :: u = chars b ++ t) : False := by
    refine hopen b ?_
    cases hb : chars b with
    | nil => exact endsBefore_nil
    | cons c cs =>
      rw [hb] at h
      obtain ⟨rfl, -⟩ := List.cons.inj h
      exact endsBefore_cons.mpr hclose
  cases as with
  | nil =>
    cases bs with
    | nil => exact ⟨rfl, (List.cons.inj h).2⟩
    | cons b bs =>
      simp only [List.map_cons, separated, List.append_assoc] at h
      exact (hover h).elim
  | cons a as =>
    cases bs with
    | nil =>
      simp only [List.map_cons, separated, List.append_assoc] at h
      exact (hover h.symm).elim
    | cons b bs =>
      rw [List.forall_mem_cons] at has
      simp only [List.map_cons, separated, List.append_assoc] at h
      -- After the first ones every other one has a separator before it.
      obtain ⟨rfl, hrest⟩ := has.1 b _ _ hpast hpast h
      have htail : ReadsOff (fun as => (as.map chars).flatMap (mark :: sep ++ ·)) [close] as :=
        readsOff_preceded hmark (by simpa using hclose) (by simpa using hne.symm) has.2
      obtain ⟨rfl, hrs⟩ := htail bs _ _ (endsBefore_cons.mpr List.mem_cons_self)
        (endsBefore_cons.mpr List.mem_cons_self) hrest
      exact ⟨rfl, (List.cons.inj hrs).2⟩

end Lists

section Pieces

def optionStops : List Char := [',', ')', ']', ' ']

def phraseStops : List Char := [',', ')', ']']

theorem isWordChar_eq_false_of_endsBefore {r : List Char} (h : EndsBefore optionStops r) :
    ∀ c ∈ r.head?, isWordChar c = false := by
  have hstops : optionStops.any isWordChar = false := by decide
  exact fun c hc => Bool.eq_false_iff.mpr (List.any_eq_false.mp hstops c (h c hc))

@[simp]
theorem termsChars_eq_map (ts : List Term) : termsChars ts = ts.map Term.chars := by
  induction ts with
  | nil => rfl
  | cons t ts ih => rw [termsChars, ih, List.map_cons]

@[simp]
theorem phrasesChars_eq_map (ps : List Phrase) : phrasesChars ps = ps.map Phrase.chars := by
  induction ps with
  | nil => rfl
  | cons p ps ih => rw [phrasesChars, ih, List.map_cons]

namespace Term

def lead : Term → List Char
  | atom a => a.chars
  | call h _ _ => h.name.toList
  | not _ | listing _ | group _ => []

def body : Term → List Char
  | atom _ => []
  | call _ p ns =>
    '(' :: (p.chars ++ (ns.map count).flatMap (comma ++ ·) ++ [')'])
  | not t => '!' :: t.chars
  | listing ts => '[' :: (separated comma (ts.map chars) ++ [']'])
  | group ps => '(' :: (separated comma (ps.map Phrase.chars) ++ [')'])

theorem chars_eq_lead_append_body (t : Term) : t.chars = t.lead ++ t.body := by
  cases t <;> simp [chars, lead, body]

theorem isWordChar_of_mem_lead {t : Term} : ∀ c ∈ t.lead, isWordChar c = true := by
  cases t with
  | atom a => exact fun c hc => Atom.isWordChar_of_mem hc
  | call h p ns => exact h.isWordChar_of_mem
  | not t | listing ts | group ps => simp [lead]

theorem isWordChar_eq_false_of_body {t : Term} {r : List Char} (hr : EndsBefore optionStops r) :
    ∀ c ∈ (t.body ++ r).head?, isWordChar c = false := by
  cases t with
  | atom a => exact isWordChar_eq_false_of_endsBefore hr
  | call h p ns | not t | listing ts | group ps => simp [body, isWordChar, Char.isAlphanum]

theorem split {t u : Term} {r s : List Char} (hr : EndsBefore optionStops r)
    (hs : EndsBefore optionStops s) (h : t.chars ++ r = u.chars ++ s) :
    t.lead = u.lead ∧ t.body ++ r = u.body ++ s := by
  rw [chars_eq_lead_append_body, chars_eq_lead_append_body, List.append_assoc,
    List.append_assoc] at h
  exact append_inj_of_words isWordChar_of_mem_lead isWordChar_of_mem_lead
    (isWordChar_eq_false_of_body hr) (isWordChar_eq_false_of_body hs) h

theorem not_endsBefore_chars (t : Term) : ¬ EndsBefore optionStops t.chars := by
  have hword {w r : List Char} (hne : w ≠ []) (hw : ∀ c ∈ w, isWordChar c = true)
      (h : EndsBefore optionStops (w ++ r)) : False := by
    cases w with
    | nil => exact hne rfl
    | cons c w =>
      have hc := isWordChar_eq_false_of_endsBefore h c rfl
      rw [hw c List.mem_cons_self] at hc
      cases hc
  intro h
  rw [chars_eq_lead_append_body] at h
  cases t with
  | atom a => exact hword a.chars_ne_nil (fun _ => Atom.isWordChar_of_mem) h
  | call g p ns => exact hword g.name_ne_nil g.isWordChar_of_mem h
  | not t | listing ts | group ps => exact absurd (endsBefore_cons.mp h) (by decide)

end Term

theorem Phrase.not_endsBefore_chars (p : Phrase) : ¬ EndsBefore phraseStops p.chars := by
  obtain ⟨t, ts⟩ := p
  intro h
  refine t.not_endsBefore_chars (EndsBefore.mono (fun c hc => h c ?_) (by decide))
  rw [chars, separated]
  cases ht : t.chars with
  | nil => simp [ht] at hc
  | cons d cs => simpa [ht] using hc

theorem readsOff_count (n : Nat) : ReadsOff count phraseStops n := by
  intro m r s hr hs h
  have hstop {r : List Char} (hr : EndsBefore phraseStops r) :
      ∀ c ∈ r.head?, isWordChar c = false :=
    isWordChar_eq_false_of_endsBefore (hr.mono (by decide))
  have hword (n : Nat) : ∀ c ∈ (toString n).toList, isWordChar c = true :=
    fun c hc => isWordChar_of_isDigit (isDigit_of_mem_toString hc)
  obtain ⟨hnum, hrest⟩ := append_inj_of_words (hword n) (hword m) (hstop hr) (hstop hs) h
  exact ⟨toString_nat_inj hnum, hrest⟩

namespace Term

theorem reads_atom (a : Atom) : ReadsOff chars optionStops (atom a) := by
  intro u r s hr hs h
  obtain ⟨hlead, hbody⟩ := split hr hs h
  cases u with
  | atom b =>
    rw [Atom.chars_inj hlead]
    exact ⟨rfl, hbody⟩
  | call g p ns =>
    -- The words may be the same, but no parenthesis can stand after an atom.
    rw [show r = '(' :: _ from hbody] at hr
    exact absurd (endsBefore_cons.mp hr) (by decide)
  | not t | listing ts | group ps => exact absurd hlead a.chars_ne_nil

theorem reads_not {t : Term} (ht : ReadsOff chars optionStops t) :
    ReadsOff chars optionStops (not t) := by
  intro u r s hr hs h
  obtain ⟨hlead, hbody⟩ := split hr hs h
  cases u with
  | not u =>
    obtain ⟨rfl, hrs⟩ := ht u r s hr hs (List.cons.inj hbody).2
    exact ⟨rfl, hrs⟩
  | listing us | group ps => exact absurd (List.cons.inj hbody).1 (by decide)
  | atom b => exact absurd hlead.symm b.chars_ne_nil
  | call g p ns => exact absurd hlead.symm g.name_ne_nil

theorem reads_listing {ts : List Term} (hts : ∀ t ∈ ts, ReadsOff chars optionStops t) :
    ReadsOff chars optionStops (listing ts) := by
  intro u r s hr hs h
  obtain ⟨hlead, hbody⟩ := split hr hs h
  cases u with
  | listing us =>
    have hinner : separated comma (ts.map chars) ++ ']' :: r =
        separated comma (us.map chars) ++ ']' :: s := by
      simpa [body] using hbody
    obtain ⟨rfl, hrs⟩ := separated_inj (by decide) (by decide) (by decide)
      not_endsBefore_chars hts hinner
    exact ⟨rfl, hrs⟩
  | not t | group ps => exact absurd (List.cons.inj hbody).1 (by decide)
  | atom b => exact absurd hlead.symm b.chars_ne_nil
  | call g p ns => exact absurd hlead.symm g.name_ne_nil

theorem reads_group {ps : List Phrase} (hps : ∀ p ∈ ps, ReadsOff Phrase.chars phraseStops p) :
    ReadsOff chars optionStops (group ps) := by
  intro u r s hr hs h
  obtain ⟨hlead, hbody⟩ := split hr hs h
  cases u with
  | group qs =>
    have hinner : separated comma (ps.map Phrase.chars) ++ ')' :: r =
        separated comma (qs.map Phrase.chars) ++ ')' :: s := by
      simpa [body] using hbody
    obtain ⟨rfl, hrs⟩ := separated_inj (by decide) (by decide) (by decide)
      Phrase.not_endsBefore_chars hps hinner
    exact ⟨rfl, hrs⟩
  | not t | listing us => exact absurd (List.cons.inj hbody).1 (by decide)
  | atom b => exact absurd hlead.symm b.chars_ne_nil
  | call g p ns => exact absurd hlead.symm g.name_ne_nil

theorem reads_call (g : Head) {p : Phrase} (hp : ReadsOff Phrase.chars phraseStops p)
    (ns : List Nat) : ReadsOff chars optionStops (call g p ns) := by
  intro u r s hr hs h
  obtain ⟨hlead, hbody⟩ := split hr hs h
  cases u with
  | call g' q ms =>
    obtain rfl := Head.name_inj hlead
    -- The child goes on up to the first comma outside of it, or to the closing parenthesis.
    have hinner : p.chars ++ ((ns.map count).flatMap (comma ++ ·) ++ ')' :: r) =
        q.chars ++ ((ms.map count).flatMap (comma ++ ·) ++ ')' :: s) := by
      simpa [body] using hbody
    have hpast {ns : List Nat} {r : List Char} :
        EndsBefore phraseStops ((ns.map count).flatMap (comma ++ ·) ++ ')' :: r) :=
      endsBefore_preceded (by decide) (endsBefore_cons.mpr (by decide)) ns
    obtain ⟨rfl, hcounts⟩ := hp q _ _ hpast hpast hinner
    have hns : ReadsOff (fun ns => (ns.map count).flatMap (comma ++ ·)) [')'] ns :=
      readsOff_preceded (by decide) (by decide) (by decide) fun n _ => readsOff_count n
    obtain ⟨rfl, hrs⟩ := hns ms _ _ (endsBefore_cons.mpr (by decide))
      (endsBefore_cons.mpr (by decide)) hcounts
    exact ⟨rfl, (List.cons.inj hrs).2⟩
  | atom b =>
    rw [show s = '(' :: _ from hbody.symm] at hs
    exact absurd (endsBefore_cons.mp hs) (by decide)
  | not t | listing us | group qs => exact absurd hlead g.name_ne_nil

end Term

theorem Phrase.reads {t : Term} {ts : List Term} (ht : ReadsOff Term.chars optionStops t)
    (hts : ∀ u ∈ ts, ReadsOff Term.chars optionStops u) :
    ReadsOff chars phraseStops (.mk t ts) := by
  rintro ⟨u, us⟩ r s hr hs h
  simp only [chars, separated, termsChars_eq_map, List.append_assoc] at h
  have hpast {ts : List Term} {r : List Char} (hr : EndsBefore phraseStops r) :
      EndsBefore optionStops ((ts.map Term.chars).flatMap (bar ++ ·) ++ r) :=
    endsBefore_preceded (by decide) (hr.mono (by decide)) ts
  obtain ⟨rfl, hmore⟩ := ht u _ _ (hpast hr) (hpast hs) h
  obtain ⟨rfl, hrs⟩ := readsOff_preceded (by decide) (by decide) (by decide) hts us r s hr hs hmore
  exact ⟨rfl, hrs⟩

/-- A text is taken apart in one way only. -/
theorem Phrase.chars_inj {p q : Phrase} (h : p.chars = q.chars) : p = q := by
  have hreads := (Term.induct (P := ReadsOff Term.chars optionStops)
    (Q := ReadsOff chars phraseStops) Term.reads_atom (fun _ => Term.reads_not)
    (fun _ => Term.reads_listing) (fun _ => Term.reads_group)
    (fun g _ ns hp => Term.reads_call g hp ns) fun _ _ => Phrase.reads).2 p
  exact (hreads q [] [] endsBefore_nil endsBefore_nil (by rw [h])).1

end Pieces

end SeqPattern
