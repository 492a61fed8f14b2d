import CooklangSync.Server.Chunks

/-!
# CappedStream — the capped body, poll by poll

`capped_data_stream` is a generator.  Each poll runs it to its next `yield`: it takes a piece from
the body, and subtracts what has passed from the limit without a check.  What it yields in all is
`cappedDataStream`.
-/

namespace CooklangSync.Server

open Theory

/-- The generator between two polls; `body` is what it has not taken yet. -/
structure CappedStream where
  limit : Nat
  seen : Nat
  body : Body
  returned : Bool
  deriving DecidableEq, Repr

namespace CappedStream

variable {ε : Type}

def start (limit : Nat) (body : Body) : CappedStream := ⟨limit, 0, body, false⟩

-- `limit - seen` on `usize`.
def remaining (σ : CappedStream) : Outcome ε Nat :=
  if σ.seen ≤ σ.limit then .ok (σ.limit - σ.seen) else .panic

/-- One poll.  After the piece that reaches the limit, and after an error, the generator is at its
`return`. -/
def poll (σ : CappedStream) : Outcome ε (Option (Option Bytes) × CappedStream) :=
  if σ.returned then .ok (none, σ)
  else
    match σ.body with
    | [] => .ok (none, { σ with returned := true })
    | none :: rest => .ok (some none, { σ with body := rest, returned := true })
    | some bytes :: rest => do
      let remaining ← σ.remaining
      if remaining ≤ bytes.length then
        pure (some (some (bytes.take remaining)), { σ with body := rest, returned := true })
      else
        pure (some (some bytes), { σ with body := rest, seen := σ.seen + bytes.length })

/-- What a number of polls yields. -/
def polls : Nat → CappedStream → Outcome ε (Body × CappedStream)
  | 0, σ => .ok ([], σ)
  | k + 1, σ => do
    let (item, σ) ← σ.poll
    let (items, σ) ← polls k σ
    pure (item.toList ++ items, σ)

/-! ## 1. The polls -/

theorem polls_succ {σ σ₁ σ₂ : CappedStream} {item : Option (Option Bytes)} {items : Body} {k : Nat}
    (hpoll : (σ.poll : Outcome ε _) = .ok (item, σ₁))
    (hrest : (σ₁.polls k : Outcome ε _) = .ok (items, σ₂)) :
    (σ.polls (k + 1) : Outcome ε _) = .ok (item.toList ++ items, σ₂) := by
  rw [polls, hpoll, Outcome.ok_bind]
  dsimp only
  rw [hrest]
  rfl

theorem polls_of_returned {σ : CappedStream} (h : σ.returned = true) (k : Nat) :
    (σ.polls k : Outcome ε _) = .ok ([], σ) := by
  induction k with
  | zero => rfl
  | succ k ih => exact polls_succ (by rw [poll, if_pos h]) ih

/-- The last poll that may yield something. -/
theorem polls_last {σ σ₁ : CappedStream} {item : Option (Option Bytes)}
    (hpoll : (σ.poll : Outcome ε _) = .ok (item, σ₁)) (h : σ₁.returned = true) (k : Nat) :
    (σ.polls (k + 1) : Outcome ε _) = .ok (item.toList, σ₁) := by
  have hpolls := polls_succ hpoll (polls_of_returned h k)
  rwa [List.append_nil] at hpolls

/-- A poll that finds a piece, while fewer bytes than the limit have passed. -/
theorem poll_some {limit seen : Nat} (hseen : seen < limit) (bytes : Bytes) (rest : Body) :
    (poll ⟨limit, seen, some bytes :: rest, false⟩ : Outcome ε _) =
      if limit - seen ≤ bytes.length then
        .ok (some (some (bytes.take (limit - seen))), ⟨limit, seen, rest, true⟩)
      else .ok (some (some bytes), ⟨limit, seen + bytes.length, rest, false⟩) := by
  have hremaining : remaining ⟨limit, seen, some bytes :: rest, false⟩ =
      (.ok (limit - seen) : Outcome ε _) := if_pos (Nat.le_of_lt hseen)
  rw [poll, if_neg Bool.false_ne_true]
  dsimp only
  rw [hremaining, Outcome.ok_bind]
  rfl

/-- As long as the generator has not returned, fewer bytes than the limit have passed. -/
theorem polls_eq {limit seen : Nat} (hseen : seen < limit) (body : Body) (k : Nat) :
    ∃ σ : CappedStream, (polls k ⟨limit, seen, body, false⟩ : Outcome ε _) =
        .ok ((cappedDataStream limit seen body).take k, σ) ∧
      σ.body = body.drop ((cappedDataStream limit seen body).take k).length ∧
      (body.length < k → σ.returned = true) := by
  induction k generalizing seen body with
  | zero => exact ⟨_, rfl, rfl, fun h ↦ absurd h (Nat.not_lt_zero _)⟩
  | succ k ih =>
    match body with
    | [] =>
      have hpoll : (poll ⟨limit, seen, [], false⟩ : Outcome ε _) =
          .ok (none, ⟨limit, seen, [], true⟩) := rfl
      exact ⟨_, polls_last hpoll rfl k, rfl, fun _ ↦ rfl⟩
    | none :: rest =>
      have hpoll : (poll ⟨limit, seen, none :: rest, false⟩ : Outcome ε _) =
          .ok (some none, ⟨limit, seen, rest, true⟩) := rfl
      rw [cappedDataStream, List.take_succ_cons, List.take_nil]
      exact ⟨_, polls_last hpoll rfl k, rfl, fun _ ↦ rfl⟩
    | some bytes :: rest =>
      have hpoll := @poll_some ε limit seen hseen bytes rest
      rw [cappedDataStream]
      by_cases hle : limit - seen ≤ bytes.length
      · rw [if_pos hle] at hpoll
        rw [if_pos hle, List.take_succ_cons, List.take_nil]
        exact ⟨_, polls_last hpoll rfl k, rfl, fun _ ↦ rfl⟩
      · -- the piece fits, and leaves room for one byte at least
        rw [if_neg hle] at hpoll
        obtain ⟨σ, hpolls, hbody, hreturned⟩ := ih (show seen + bytes.length < limit by omega) rest
        rw [if_neg hle, List.take_succ_cons, List.length_cons, List.drop_succ_cons]
        exact ⟨σ, polls_succ hpoll hpolls, hbody, fun h ↦ hreturned (Nat.lt_of_succ_lt_succ h)⟩

/-! ## 2. What is yielded, and what is taken -/

/-- The first `limit` bytes of a body in pieces, and then its error, if this comes before them
all. -/
def IsTruncation (limit : Nat) (body items : Body) : Prop :=
  ∃ pieces : List Bytes, pieces.flatten = body.delivered.take limit ∧
    items = pieces.map some ++ if none ∈ body ∧ body.delivered.length < limit then [none] else []

theorem cappedDataStream_take (limit seen : Nat) (body : Body) (k : Nat) :
    (cappedDataStream limit seen body).take k = cappedDataStream limit seen (body.take k) := by
  induction k generalizing seen body with
  | zero => rfl
  | succ k ih =>
    match body with
    | [] => rfl
    | none :: rest =>
      rw [cappedDataStream, List.take_succ_cons, List.take_nil, List.take_succ_cons,
        cappedDataStream]
    | some bytes :: rest =>
      rw [List.take_succ_cons, cappedDataStream, cappedDataStream, ← ih]
      split
      · rw [List.take_succ_cons, List.take_nil]
      · rw [List.take_succ_cons]

theorem cappedDataStream_pieces {limit seen : Nat} (hseen : seen < limit) (body : Body) :
    ∃ pieces : List Bytes, pieces.flatten = body.delivered.take (limit - seen) ∧
      cappedDataStream limit seen body = pieces.map some ++
        if none ∈ body ∧ seen + body.delivered.length < limit then [none] else [] := by
  induction body generalizing seen with
  | nil => exact ⟨[], List.take_nil.symm, by simp [cappedDataStream]⟩
  | cons item rest ih =>
    cases item with
    | none =>
      refine ⟨[], List.take_nil.symm, ?_⟩
      rw [cappedDataStream, Body.delivered, if_pos ⟨List.mem_cons_self, hseen⟩]
      rfl
    | some bytes =>
      rw [cappedDataStream, Body.delivered]
      by_cases hle : limit - seen ≤ bytes.length
      · refine ⟨[bytes.take (limit - seen)], ?_, ?_⟩
        · rw [List.flatten_singleton, List.take_append_of_le_length hle]
        · rw [if_pos hle, if_neg (by rw [List.length_append]; omega)]
          rfl
      · obtain ⟨pieces, hflatten, hitems⟩ := ih (show seen + bytes.length < limit by omega)
        refine ⟨bytes :: pieces, ?_, ?_⟩
        · rw [List.flatten_cons, hflatten, List.take_append,
            List.take_of_length_le (Nat.le_of_not_le hle), Nat.sub_sub]
        · rw [if_neg hle, hitems, List.length_append, ← Nat.add_assoc]
          simp

/-- A piece is taken while fewer bytes than the limit have passed. -/
theorem length_delivered_lt {limit seen : Nat} (hseen : seen < limit) {body : Body} {j : Nat}
    (hj : j < (cappedDataStream limit seen body).length) :
    seen + (Body.delivered (body.take j)).length < limit := by
  induction body generalizing seen j with
  | nil => exact absurd hj (Nat.not_lt_zero _)
  | cons item rest ih =>
    cases j with
    | zero => exact hseen
    | succ j =>
      cases item with
      | none => exact absurd (Nat.lt_of_succ_lt_succ hj) (Nat.not_lt_zero _)
      | some bytes =>
        rw [cappedDataStream] at hj
        by_cases hle : limit - seen ≤ bytes.length
        · rw [if_pos hle] at hj
          exact absurd (Nat.lt_of_succ_lt_succ hj) (Nat.not_lt_zero _)
        · rw [if_neg hle] at hj
          have hrest := ih (show seen + bytes.length < limit by omega) (Nat.lt_of_succ_lt_succ hj)
          rw [List.take_succ_cons, Body.delivered, List.length_append]
          omega

theorem length_cappedDataStream_le (limit seen : Nat) (body : Body) :
    (cappedDataStream limit seen body).length ≤ body.length := by
  induction body generalizing seen with
  | nil => exact Nat.le_refl 0
  | cons item rest ih =>
    cases item with
    | none => exact Nat.succ_le_succ (Nat.zero_le _)
    | some bytes =>
      rw [cappedDataStream]
      split
      · exact Nat.succ_le_succ (Nat.zero_le _)
      · exact Nat.succ_le_succ (ih _)

/-- However often it is polled, the generator never underflows.  It has yielded the truncation of
the pieces it has taken, each of them while fewer bytes than the limit had passed; and in the end
the truncation of the body. -/
theorem polls_truncate {limit : Nat} (hlimit : 0 < limit) (body : Body) (k : Nat) :
    ∃ (items taken : Body) (σ : CappedStream),
      ((start limit body).polls k : Outcome ε _) = .ok (items, σ) ∧ body = taken ++ σ.body ∧
      IsTruncation limit taken items ∧
      (∀ j < taken.length, (Body.delivered (taken.take j)).length < limit) ∧
      (body.length < k → σ.returned = true ∧ IsTruncation limit body items) := by
  obtain ⟨σ, hpolls, hbody, hreturned⟩ := @polls_eq ε limit 0 hlimit body k
  have hle := length_cappedDataStream_le limit 0 body
  have hlen : ((cappedDataStream limit 0 body).take k).length =
      min k (cappedDataStream limit 0 body).length := List.length_take
  have htruncation : ∀ b, IsTruncation limit b (cappedDataStream limit 0 b) := by
    intro b
    obtain ⟨pieces, hflatten, hitems⟩ := cappedDataStream_pieces hlimit b
    rw [Nat.zero_add] at hitems
    exact ⟨pieces, hflatten, hitems⟩
  refine ⟨_, body.take ((cappedDataStream limit 0 body).take k).length, σ, hpolls, ?_, ?_, ?_, ?_⟩
  · rw [hbody, List.take_append_drop]
  · have htake : (cappedDataStream limit 0 body).take k =
        cappedDataStream limit 0 (body.take ((cappedDataStream limit 0 body).take k).length) := by
      rw [← cappedDataStream_take, hlen, List.take_eq_take_iff]
      omega
    have htaken := htruncation (body.take ((cappedDataStream limit 0 body).take k).length)
    rwa [← htake] at htaken
  · intro j hj
    rw [List.length_take] at hj
    have hpassed := @length_delivered_lt limit 0 hlimit body j (by omega)
    rw [List.take_take, Nat.min_eq_left (by omega)]
    omega
  · intro hk
    refine ⟨hreturned hk, ?_⟩
    rw [List.take_of_length_le (by omega)]
    exact htruncation body

/-- A piece that ends at the limit, before an error. -/
theorem polls_truncate_exactPiece :
    ∃ σ : CappedStream,
      ((start 3 [some [], some [1, 2], some [3], some [4], none]).polls 6 : Outcome Unit _) =
        .ok ([some [], some [1, 2], some [3]], σ) ∧
      σ.body = [some [4], none] ∧
      IsTruncation 3 [some [], some [1, 2], some [3], some [4], none]
        [some [], some [1, 2], some [3]] := by
  obtain ⟨items, taken, σ, hpolls, htaken, -, -, hend⟩ := @polls_truncate Unit 3 (by decide)
    [some [], some [1, 2], some [3], some [4], none] 6
  have heval :
      ((start 3 [some [], some [1, 2], some [3], some [4], none]).polls 6 : Outcome Unit _) =
        .ok ([some [], some [1, 2], some [3]], ⟨3, 2, [some [4], none], true⟩) := by decide
  have heq := Outcome.ok.inj (hpolls.symm.trans heval)
  rw [Prod.mk.injEq] at heq
  obtain ⟨rfl, rfl⟩ := heq
  exact ⟨_, hpolls, rfl, (hend (by decide)).2⟩

end CappedStream

end CooklangSync.Server
