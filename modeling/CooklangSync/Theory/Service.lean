import Mathlib.Init

/-!
# Service — requests and their answers

A service takes requests in turn, and its clients see nothing of it but the answers.  Where every
request keeps the states of two services related and gets the same answer, no client can tell them
apart.
-/

namespace CooklangSync.Theory

structure Service (State Request Answer : Type) where
  serve : State → Request → State × Answer

namespace Service

variable {State State' Request Answer : Type}

/-- The state after some requests, and their answers. -/
def run (S : Service State Request Answer) : State → List Request → State × List Answer
  | s, [] => (s, [])
  | s, r :: rs =>
    let served := S.serve s r
    let rest := S.run served.1 rs
    (rest.1, served.2 :: rest.2)

/-- Every request is `ok` where it is made. -/
def Each (S : Service State Request Answer) (ok : State → Request → Prop) :
    State → List Request → Prop
  | _, [] => True
  | s, r :: rs => ok s r ∧ S.Each ok (S.serve s r).1 rs

theorem length_run (S : Service State Request Answer) (s : State) (rs : List Request) :
    (S.run s rs).2.length = rs.length := by
  induction rs generalizing s with
  | nil => rfl
  | cons r rs ih => rw [run, List.length_cons, List.length_cons, ih]

theorem run_append (S : Service State Request Answer) (s : State) (rs rs' : List Request) :
    S.run s (rs ++ rs') =
      ((S.run (S.run s rs).1 rs').1, (S.run s rs).2 ++ (S.run (S.run s rs).1 rs').2) := by
  induction rs generalizing s with
  | nil => rfl
  | cons r rs ih => rw [List.cons_append, run, ih]; rfl

/-- Two services that take the same requests. -/
def beside {Answer' : Type} (S : Service State Request Answer) (T : Service State' Request Answer') :
    Service (State × State') Request (Answer × Answer') where
  serve s r := (((S.serve s.1 r).1, (T.serve s.2 r).1), ((S.serve s.1 r).2, (T.serve s.2 r).2))

/-- Related states give the same answers. -/
theorem run_eq {S : Service State Request Answer} {T : Service State' Request Answer}
    {Rel : State → State' → Prop} {ok : State × State' → Request → Prop}
    (hstep : ∀ s t r, Rel s t → ok (s, t) r →
      (S.serve s r).2 = (T.serve t r).2 ∧ Rel (S.serve s r).1 (T.serve t r).1)
    {s : State} {t : State'} (h : Rel s t) {rs : List Request}
    (hok : (S.beside T).Each ok (s, t) rs) :
    (S.run s rs).2 = (T.run t rs).2 ∧ Rel (S.run s rs).1 (T.run t rs).1 := by
  induction rs generalizing s t with
  | nil => exact ⟨rfl, h⟩
  | cons r rs ih =>
    obtain ⟨hanswer, hrel⟩ := hstep s t r h hok.1
    obtain ⟨hanswers, hrels⟩ := ih hrel hok.2
    refine ⟨?_, hrels⟩
    rw [run, run, hanswer, hanswers]

/-! ## Projections -/

section Projection

variable {Request' Answer' : Type}

/-- The requests that are seen, each as it is seen where it is made. -/
def views (S : Service State Request Answer) (view : State → Request → Option Request') :
    State → List Request → List Request'
  | _, [] => []
  | s, r :: rs => (view s r).toList ++ S.views view (S.serve s r).1 rs

/-- The answers to these. -/
def seen (S : Service State Request Answer) (view : State → Request → Option Request') :
    State → List Request → List Answer
  | _, [] => []
  | s, r :: rs =>
    let served := S.serve s r
    ((view s r).map fun _ ↦ served.2).toList ++ S.seen view served.1 rs

/-- A request that is not seen leaves what is seen of the state; one that is seen is served there as
it is seen, and its answer can be read in any later state. -/
structure Projection (S : Service State Request Answer) (T : Service State' Request' Answer') where
  project : State → State'
  view : State → Request → Option Request'
  read : State → Answer' → Answer
  Before : State → State → Prop
  refl : ∀ s, Before s s
  before_serve : ∀ s r s', Before (S.serve s r).1 s' → Before s s'
  serve_of_none : ∀ s r, view s r = none → project (S.serve s r).1 = project s
  serve_of_some : ∀ s r r', view s r = some r' →
    (T.serve (project s) r').1 = project (S.serve s r).1 ∧
      ∀ s', Before (S.serve s r).1 s' → read s' (T.serve (project s) r').2 = (S.serve s r).2

variable {S : Service State Request Answer} {T : Service State' Request' Answer'}

theorem Projection.before_run (P : Projection S T) (s : State) (rs : List Request) :
    P.Before s (S.run s rs).1 := by
  induction rs generalizing s with
  | nil => exact P.refl s
  | cons r rs ih => exact P.before_serve s r _ (ih (S.serve s r).1)

/-- The run of what is seen has the answers of the run, read in its last state. -/
theorem Projection.run_views (P : Projection S T) (s : State) (rs : List Request) :
    (T.run (P.project s) (S.views P.view s rs)).1 = P.project (S.run s rs).1 ∧
      (T.run (P.project s) (S.views P.view s rs)).2.map (P.read (S.run s rs).1) =
        S.seen P.view s rs := by
  induction rs generalizing s with
  | nil => exact ⟨rfl, rfl⟩
  | cons r rs ih =>
    obtain ⟨hstate, hanswers⟩ := ih (S.serve s r).1
    rw [views, seen, run]
    cases hview : P.view s r with
    | none =>
      rw [← P.serve_of_none s r hview]
      exact ⟨hstate, hanswers⟩
    | some r' =>
      obtain ⟨hserved, hread⟩ := P.serve_of_some s r r' hview
      change (T.run (P.project s) (r' :: S.views P.view (S.serve s r).1 rs)).1 = _ ∧
        (T.run (P.project s) (r' :: S.views P.view (S.serve s r).1 rs)).2.map _ = _
      rw [run, hserved, List.map_cons, hanswers, hread _ (P.before_run (S.serve s r).1 rs)]
      exact ⟨hstate, rfl⟩

end Projection

end Service

end CooklangSync.Theory
