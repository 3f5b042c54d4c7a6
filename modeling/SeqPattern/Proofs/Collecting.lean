import SeqPattern.Meaning.Collecting
import SeqPattern.Proofs.Known

namespace SeqPattern

variable {α β : Type}

namespace Supply

variable {u : Supply α} {index : Nat}

theorem get?_eq_none_of_le {i j : Nat} (h : u.get? i = none) (hij : i ≤ j) : u.get? j = none := by
  cases u with
  | finite xs =>
    have hi : xs.size ≤ i := Array.getElem?_eq_none_iff.mp h
    exact Array.getElem?_eq_none (Nat.le_trans hi hij)
  | endless us => exact absurd h (Option.some_ne_none _)

@[simp]
theorem slice_zero (u : Supply α) (index : Nat) : u.slice index 0 = [] := rfl

theorem slice_of_none (h : u.get? index = none) (count : Nat) : u.slice index count = [] := by
  rw [slice, List.filterMap_eq_nil_iff]
  intro i hi
  exact get?_eq_none_of_le h ((List.mem_range'_1.mp hi).1)

theorem slice_succ_of_some {a : α} (h : u.get? index = some a) (count : Nat) :
    u.slice index (count + 1) = a :: u.slice (index + 1) count := by
  rw [slice, List.range'_succ, List.filterMap_cons_some h, slice]

end Supply

namespace Source

/-- The sequence consists of the items of the supply. If it is drawn on demand, any number of them
may have been drawn already. -/
inductive DrawsOn (u : Supply α) : Source α → Prop
  | whole {xs : Array α} (h : u = .finite xs) : DrawsOn u (.whole xs)
  | drawn {s : LazySource α} (h : s.Draws u) : DrawsOn u (.drawn s)

theorem drawsOn_finite_iff {xs : Array α} {src : Source α} :
    src.DrawsOn (.finite xs) ↔ src.Holds xs := by
  constructor
  · intro h
    cases h with
    | whole hu =>
      cases hu
      exact .whole
    | drawn hs => exact .drawn hs
  · intro h
    cases h with
    | whole => exact .whole rfl
    | drawn hs => exact .drawn hs

section DrawsOn

variable {u : Supply α} {src : Source α} (h : src.DrawsOn u)

include h

theorem DrawsOn.run_snd (q : Query α β) : (src.run q).2.DrawsOn u := by
  cases h with
  | whole hu => exact .whole hu
  | drawn hs => exact .drawn (Query.draws_drive hs q)

theorem DrawsOn.run_get? (i : Nat) : (src.run (Query.get? i)).1 = u.get? i := by
  cases u with
  | finite xs => exact ((drawsOn_finite_iff.mp h).run_fst _).trans (Query.eval_get? xs i)
  | endless us =>
    cases h with
    | whole hu => cases hu
    | @drawn s hs =>
      change ((Query.get? i).drive s).1 = some (us i)
      simp [Query.get?, hs.read_endless, Except.toOption]

theorem DrawsOn.run_mapM {γ : Type} {f : β → Query α γ} {g : β → γ}
    (hf : ∀ {src : Source α}, src.DrawsOn u → ∀ b, (src.run (f b)).1 = g b) (bs : List β) :
    (src.run (bs.mapM f)).1 = bs.map g := by
  induction bs generalizing src with
  | nil => simp
  | cons b bs ih => simp [List.mapM_cons, hf h, ih (h.run_snd (f b))]

theorem DrawsOn.run_readFrom (w : Window) {n i : Nat} (hn : i + n ≤ w.count) (before : List α) :
    (src.run (w.readFrom n i before)).1 = before.reverse ++ u.slice (w.index + i) n := by
  induction n generalizing src i before with
  | zero => simp [Window.readFrom]
  | succ n ih =>
    have hi : i < w.count := by omega
    rw [Window.readFrom, Source.run_bind, Window.get?, if_pos hi, h.run_get?]
    cases ha : u.get? (w.index + i) with
    | none => simp [Supply.slice_of_none ha]
    | some a =>
      have hrest := ih (h.run_snd (Query.get? (w.index + i))) (i := i + 1) (by omega) (a :: before)
      rw [Supply.slice_succ_of_some ha]
      simpa [Nat.add_assoc] using hrest

theorem DrawsOn.run_items (m : Match) : (src.run m.items).1 = u.slice m.index m.length := by
  have hread := h.run_readFrom m.window (Nat.le_of_eq (Nat.zero_add m.length)) []
  simpa using! hread

theorem DrawsOn.run_collected_items (l : MatchList) :
    (src.run l.items).1 = l.toList.flatMap fun m => u.slice m.index m.length := by
  have hitems := h.run_mapM (fun hsrc => hsrc.run_items) l.toList
  rw [MatchList.items, Source.run_bind, hitems, Source.run_pure, List.flatMap_def]

end DrawsOn

end Source

namespace MatchList

variable {u : Supply α} {src : Source α} {l : MatchList}

@[simp]
theorem after_nil (l : MatchList) : l.after [] = l := by
  cases l
  simp [after, admitted]

theorem after_of_locked (h : l.locked = true) (requests : List Request) : l.after requests = l := by
  obtain ⟨content, locked⟩ := l
  subst h
  simp [after]

@[simp]
theorem admitted_nil : admitted [] = [] := rfl

@[simp]
theorem admitted_lock (requests : List Request) : admitted (.lock :: requests) = [] := by
  simp [admitted]

@[simp]
theorem admitted_add (m : Match) (requests : List Request) :
    admitted (.add m :: requests) = m :: admitted requests := by
  simp [admitted, Request.added?]

theorem admitted_of_reading {request : Request} (hadd : request.added? = none)
    (hlock : request ≠ .lock) (requests : List Request) :
    admitted (request :: requests) = admitted requests := by
  simp [admitted, hlock, hadd]

theorem after_of_reading {request : Request} (hadd : request.added? = none)
    (hlock : request ≠ .lock) (requests : List Request) :
    l.after (request :: requests) = l.after requests := by
  simp [after, admitted_of_reading hadd hlock, hlock.symm]

theorem after_cons (l : MatchList) (request : Request) (requests : List Request) :
    l.after (request :: requests) = (l.after [request]).after requests := by
  cases hl : l.locked with
  | true => simp only [after_of_locked hl]
  | false =>
    have hstays (hadd : request.added? = none) (hlock : request ≠ .lock) :
        l.after (request :: requests) = (l.after [request]).after requests := by
      simp only [after_of_reading hadd hlock, after_nil]
    cases request with
    | add m => simp [after, hl]
    | lock =>
      have hlocked : (l.after [.lock]).locked = true := by simp [after]
      rw [after_of_locked hlocked]
      simp [after]
    | remove | get | entry | list | items => exact hstays rfl (by simp)

theorem after_append (l : MatchList) (requests more : List Request) :
    l.after (requests ++ more) = (l.after requests).after more := by
  induction requests generalizing l with
  | nil => simp
  | cons request requests ih => rw [List.cons_append, after_cons, ih, ← after_cons]

theorem toList_after (l : MatchList) (requests : List Request) :
    (l.after requests).toList = l.toList ++ if l.locked then [] else admitted requests := by
  simp [after, toList]

theorem locked_after (l : MatchList) (requests : List Request) :
    (l.after requests).locked = true ↔ l.locked = true ∨ .lock ∈ requests := by
  simp [after]

theorem serve_add_of_locked (h : l.locked = true) (m : Match) :
    l.serve (.add m) = (pure (.failed .collectionLocked, l) : Query α (Reply α × MatchList)) := by
  simp [serve, add, h]

theorem serve_remove (l : MatchList) (i : Nat) :
    l.serve (.remove i) = (pure (.failed (.matchRemoved i), l) : Query α (Reply α × MatchList)) :=
  rfl

section Serving

variable (h : src.DrawsOn u)

include h

theorem run_serve (l : MatchList) (request : Request) :
    (src.run (l.serve request)).1 = (l.answer u request, l.after [request]) := by
  have hstays (hadd : request.added? = none) (hlock : request ≠ .lock) : l.after [request] = l :=
    (after_of_reading hadd hlock []).trans (after_nil l)
  cases request with
  | add m =>
    obtain ⟨content, locked⟩ := l
    cases locked <;> simp [serve, add, answer, after]
  | lock => simp [serve, lock, answer, after]
  | remove i =>
    rw [hstays rfl (by simp), serve_remove, Source.run_pure]
    rfl
  | get i =>
    rw [hstays rfl (by simp)]
    simp [serve, get?, answer, toList]
  | entry i =>
    rw [hstays rfl (by simp)]
    cases hm : l.content[i]? <;> simp [serve, entry, answer, toList, size, hm]
  | list =>
    rw [hstays rfl (by simp)]
    simp [serve, answer]
  | items =>
    rw [hstays rfl (by simp)]
    simp [serve, answer, h.run_collected_items]

theorem run_serveAll (l : MatchList) (requests : List Request) :
    (src.run (l.serveAll requests)).1.2 = l.after requests ∧
      ∀ k, (src.run (l.serveAll requests)).1.1[k]? =
        requests[k]?.map ((l.after (requests.take k)).answer u) := by
  induction requests generalizing src l with
  | nil => simp [serveAll]
  | cons request requests ih =>
    obtain ⟨hlast, hreplies⟩ := ih (h.run_snd (l.serve request)) (l.after [request])
    rw [serveAll, Source.run_bind, run_serve h]
    dsimp only
    rw [Source.run_bind, Source.run_pure]
    refine ⟨hlast.trans (after_cons l request requests).symm, fun k => ?_⟩
    cases k with
    | zero => simp
    | succ k =>
      rw [List.take_succ_cons, after_cons l request (requests.take k), List.getElem?_cons_succ,
        List.getElem?_cons_succ]
      exact hreplies k

/-- Whatever is asked of a collection, and in whatever order, it holds the matches it had and after
them those that were added while it was open. Each reply is told by what is held then: elements are
those of one match after the other, wherever they lie. Once it is locked nothing changes it any
more; adding is refused then, and removing always, and neither leaves a trace. A collection that has
been collected is locked from the start. -/
theorem holds_what_was_added_while_open (l : MatchList) (requests : List Request) :
    let r := (src.run (l.serveAll requests)).1
    r.2.toList = l.toList ++ (if l.locked then [] else admitted requests) ∧
    (r.2.locked = true ↔ l.locked = true ∨ .lock ∈ requests) ∧
    (∀ k, r.1[k]? = requests[k]?.map ((l.after (requests.take k)).answer u)) ∧
    (r.2.locked = true → ∀ more, (src.run (l.serveAll (requests ++ more))).1.2 = r.2) ∧
    (r.2.locked = true → ∀ m, ∃ f : Failure, f.kind = .invalidOperation ∧
      (r.2.serve (.add m) : Query α _) = pure (.failed f, r.2)) ∧
    (∀ i, ∃ f : Failure, f.kind = .unsupported ∧
      (r.2.serve (.remove i) : Query α _) = pure (.failed f, r.2)) ∧
    ∀ ms, (collect ms).toList = ms ∧ (collect ms).locked = true := by
  intro r
  obtain ⟨hlast, hreplies⟩ := run_serveAll h l requests
  have hr : r.2 = l.after requests := hlast
  refine ⟨?_, ?_, hreplies, fun hlocked more => ?_, fun hlocked m => ?_, fun i => ?_,
    fun ms => ⟨rfl, rfl⟩⟩
  · rw [hr, toList_after]
  · rw [hr, locked_after]
  · rw [(run_serveAll h l (requests ++ more)).1, after_append, ← hr, after_of_locked hlocked]
  · exact ⟨.collectionLocked, rfl, serve_add_of_locked hlocked m⟩
  · exact ⟨.matchRemoved i, rfl, serve_remove r.2 i⟩

end Serving

/-- Matches that overlap, repeat and are empty, over the numbers 0, 1, 2, 0, 1, 2 and so on. -/
theorem holds_what_was_added_while_open_endless :
    let requests : List Request := [.add ⟨1, 3, true⟩, .add ⟨7, 0, true⟩, .remove 0,
      .add ⟨2, 2, true⟩, .lock, .add ⟨0, 1, true⟩, .items, .add ⟨1, 3, true⟩]
    let src : Source Nat := .drawn { feed := fun i => some (i % 3) }
    let r := (src.run (serveAll {} requests)).1
    r.2.toList = [⟨1, 3, true⟩, ⟨7, 0, true⟩, ⟨2, 2, true⟩] ∧ r.2.locked = true ∧
      r.1[6]? = some (.elements [1, 2, 0, 2, 0]) := by
  intro requests src r
  have hsrc : src.DrawsOn (.endless (· % 3)) := .drawn (LazySource.draws_initial fun _ => rfl)
  obtain ⟨hheld, hlocked, hreplies, -⟩ := holds_what_was_added_while_open hsrc {} requests
  exact ⟨hheld, hlocked.mpr (by decide), hreplies 6⟩

end MatchList

end SeqPattern
