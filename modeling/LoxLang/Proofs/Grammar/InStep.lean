import LoxLang.Proofs.Grammar.Indexed
import LoxLang.Proofs.Grammar.Reading

/-!
Reading by position is reading what is ahead. A place stands at a cursor if the cursor has before it
what lies between the place and the end marker. From places and cursors that stand so, the readers by
position and those of the grammar end alike and stand so again; no fault is among the ways to end. On
the way, the position only grows, and the errors kept are only added to.

A rule comes back to itself at a later position only. What is said of readers is therefore said for
inputs of fewer than a given number of tokens, and fuel for as many levels and passes is enough.
-/

namespace LoxLang.Grammar.Indexed

variable {α β : Type} {p q : Place} {c d : Cursor} {t : Token} {ts : List Token} {kind : Kind}
  {cause : SyntaxCause} {i j k n : Nat}

/-! ### Places and moves -/

/-- A place stands where a cursor does. -/
structure Place.At (p : Place) (c : Cursor) : Prop where
  ahead : ∃ stop, stop.kind = .eof ∧ p.tokens.drop p.current = c.ahead ++ [stop]
  genuine : ∀ t ∈ c.ahead, t.kind ≠ .eof
  nextId : p.nextId = c.nextId
  errors : p.errors = c.errors

/-- A moment that may come before another: no position is left behind, and no error is lost. -/
def Moment.Precedes (m m' : Moment) : Prop :=
  m.position ≤ m'.position ∧ m.errors <+: m'.errors

theorem Moment.Precedes.refl (m : Moment) : m.Precedes m :=
  ⟨Nat.le_refl _, List.prefix_rfl⟩

theorem Moment.Precedes.trans {m m' m'' : Moment} (h : m.Precedes m') (h' : m'.Precedes m'') :
    m.Precedes m'' :=
  ⟨Nat.le_trans h.1 h'.1, h.2.trans h'.2⟩

/-- A reader may get from one place to the other, the looks on the way being in order. -/
structure Moves (p q : Place) : Prop where
  tokens : q.tokens = p.tokens
  onward : p.moment.Precedes q.moment
  looks : ∃ later, q.trace = p.trace ++ later ∧ later.Pairwise Moment.Precedes ∧
    ∀ m ∈ later, p.moment.Precedes m ∧ m.Precedes q.moment

theorem Moves.of_trace (htokens : q.tokens = p.tokens) (honward : p.moment.Precedes q.moment)
    (htrace : q.trace = p.trace) : Moves p q :=
  ⟨htokens, honward, [], by simpa using htrace, .nil, by simp⟩

theorem Moves.refl (p : Place) : Moves p p :=
  .of_trace rfl (.refl _) rfl

theorem Moves.trans {u : Place} (h : Moves p q) (h' : Moves q u) : Moves p u := by
  obtain ⟨l, hl, hord, hbetween⟩ := h.looks
  obtain ⟨l', hl', hord', hbetween'⟩ := h'.looks
  refine ⟨h'.tokens.trans h.tokens, h.onward.trans h'.onward, l ++ l', ?_, ?_, ?_⟩
  · rw [hl', hl, List.append_assoc]
  · refine List.pairwise_append.mpr ⟨hord, hord', fun m hm m' hm' => ?_⟩
    exact (hbetween m hm).2.trans (hbetween' m' hm').1
  · intro m hm
    rcases List.mem_append.mp hm with hm | hm
    · exact ⟨(hbetween m hm).1, (hbetween m hm).2.trans h'.onward⟩
    · exact ⟨h.onward.trans (hbetween' m hm).1, (hbetween' m hm).2⟩

theorem Moves.noted (p : Place) : Moves p p.noted :=
  ⟨rfl, .refl _, [p.moment], rfl, List.pairwise_singleton ..,
    by simp [Moment.Precedes.refl, Place.noted, Place.moment]⟩

theorem Place.At.noted (h : p.At c) : p.noted.At c :=
  ⟨h.ahead, h.genuine, h.nextId, h.errors⟩

/-- The position and what is ahead make up the tokens before the end marker. -/
theorem Place.At.length (h : p.At c) : p.current + c.ahead.length + 1 = p.tokens.length := by
  obtain ⟨stop, -, hdrop⟩ := h.ahead
  have hlength := congrArg List.length hdrop
  simp only [List.length_drop, List.length_append, List.length_singleton] at hlength
  omega

theorem Place.At.getElem?_current (h : p.At c) (hahead : c.ahead = t :: ts) :
    p.tokens[p.current]? = some t := by
  obtain ⟨stop, -, hdrop⟩ := h.ahead
  rw [← List.head?_drop, hdrop, hahead]
  rfl

/-- One token further. -/
theorem Place.At.tail (h : p.At c) (hahead : c.ahead = t :: ts) :
    Place.At { p with current := p.current + 1 } { c with ahead := ts } := by
  obtain ⟨stop, hstop, hdrop⟩ := h.ahead
  refine ⟨⟨stop, hstop, ?_⟩, fun u hu => h.genuine u ?_, h.nextId, h.errors⟩
  · rw [← List.drop_drop, hdrop, hahead]
    rfl
  · exact hahead ▸ List.mem_cons_of_mem _ hu

/-! ### Outcomes alike -/

/-- From a place, two readers have ended alike, the first of them at least so many tokens further if
both succeeded. -/
inductive Agrees (least : Nat) (p : Place) :
    EStateM.Result Stop Place α → EStateM.Result SyntaxError Cursor α → Prop where
  | ok {a : α} {q : Place} {d : Cursor} (at_ : q.At d) (moves : Moves p q)
      (further : p.current + least ≤ q.current) : Agrees least p (.ok a q) (.ok a d)
  | error {e : SyntaxError} {q : Place} {d : Cursor} (at_ : q.At d) (moves : Moves p q) :
      Agrees least p (.error (.refused e) q) (.error e d)

/-- On inputs of `j` tokens or more but fewer than `k`, the second reader does by what is ahead what
the first one does by position, and success takes at least so many tokens. -/
def Follows (j k least : Nat) (x : Parser α) (y : Reader α) : Prop :=
  ∀ p c, p.At c → j ≤ c.ahead.length → c.ahead.length < k → Agrees least p (x p) (y c)

theorem Agrees.after {m : Nat} {r : EStateM.Result Stop Place α}
    {s : EStateM.Result SyntaxError Cursor α} (hmoves : Moves p q)
    (hfurther : p.current + m ≤ q.current) (h : Agrees n q r s) : Agrees (m + n) p r s := by
  cases h with
  | ok hat hmoves' hfurther' => exact .ok hat (hmoves.trans hmoves') (by omega)
  | error hat hmoves' => exact .error hat (hmoves.trans hmoves')

theorem Agrees.weaken {m : Nat} {r : EStateM.Result Stop Place α}
    {s : EStateM.Result SyntaxError Cursor α} (h : Agrees n p r s) (hm : m ≤ n) : Agrees m p r s := by
  cases h with
  | ok hat hmoves hfurther => exact .ok hat hmoves (by omega)
  | error hat hmoves => exact .error hat hmoves

namespace Follows

variable {x x' : Parser α} {y y' : Reader α}

theorem weaken {j' k' n' : Nat} (h : Follows j k n x y) (hj : j ≤ j') (hk : k' ≤ k) (hn : n' ≤ n) :
    Follows j' k' n' x y :=
  fun p c hat hj' hk' => (h p c hat (by omega) (by omega)).weaken hn

/-- What took a token is a reader like any other. -/
theorem loose (h : Follows j k n x y) : Follows j k 0 x y :=
  h.weaken (Nat.le_refl _) (Nat.le_refl _) (Nat.zero_le _)

theorem pure (a : α) : Follows j k 0 (pure a) (pure a) :=
  fun p _ hat _ _ => .ok hat (.refl p) (Nat.le_refl _)

/-- A reader goes on with the tokens that the first part has left. -/
theorem bindLeast {m : Nat} {f : α → Parser β} {g : α → Reader β} (hx : Follows j k m x y)
    (hf : ∀ a, Follows 0 (k - m) n (f a) (g a)) : Follows j k (m + n) (x >>= f) (y >>= g) := by
  intro p c hat hj hk
  have hrun := hx p c hat hj hk
  change Agrees _ _ (EStateM.bind x f p) (EStateM.bind y g c)
  unfold EStateM.bind
  generalize x p = r, y c = s at hrun
  cases hrun with
  | @ok a q d hat' hmoves hfurther =>
      have hlength := hat.length
      have hlength' := hat'.length
      rw [hmoves.tokens] at hlength'
      exact (hf a q d hat' (Nat.zero_le _) (by omega)).after hmoves hfurther
  | error hat' hmoves => exact .error hat' hmoves

theorem bind {f : α → Parser β} {g : α → Reader β} (hx : Follows j k 0 x y)
    (hf : ∀ a, Follows 0 k n (f a) (g a)) : Follows j k n (x >>= f) (y >>= g) :=
  (hx.bindLeast hf).weaken (Nat.le_refl _) (Nat.le_refl _) (Nat.le_add_left ..)

/-- What follows a token has fewer tokens to read. -/
theorem eat {f : α → Parser β} {g : α → Reader β} (hx : Follows j (k + 1) 1 x y)
    (hf : ∀ a, Follows 0 k 0 (f a) (g a)) : Follows j (k + 1) 1 (x >>= f) (y >>= g) :=
  hx.bindLeast hf

theorem map {f : α → β} (hx : Follows j k n x y) : Follows j k n (f <$> x) (f <$> y) := by
  rw [map_eq_pure_bind, map_eq_pure_bind]
  exact hx.bindLeast fun a => .pure (f a)

theorem ite {b : Prop} [Decidable b] (hx : Follows j k n x y) (hx' : Follows j k n x' y') :
    Follows j k n (if b then x else x') (if b then y else y') := by
  split
  · exact hx
  · exact hx'

end Follows

/-! ### Single tokens -/

theorem peek_cons (h : p.At c) (hahead : c.ahead = t :: ts) : peek p = .ok t p.noted := by
  rw [peek, h.getElem?_current hahead]

theorem peek_nil (h : p.At c) (hahead : c.ahead = []) :
    ∃ stop, stop.kind = .eof ∧ peek p = .ok stop p.noted := by
  obtain ⟨stop, hstop, hdrop⟩ := h.ahead
  refine ⟨stop, hstop, ?_⟩
  have hlook : p.tokens[p.current]? = some stop := by
    rw [← List.head?_drop, hdrop, hahead]
    rfl
  rw [peek, hlook]

/-- Asking for the end is a look. -/
theorem isAtEnd_eq (h : p.At c) : isAtEnd p = .ok c.ahead.isEmpty p.noted := by
  cases hahead : c.ahead with
  | nil =>
      obtain ⟨stop, hstop, hpeek⟩ := peek_nil h hahead
      rw [isAtEnd, bind_of_ok hpeek, hstop]
      rfl
  | cons t ts =>
      have ht : t.kind ≠ .eof := h.genuine t (hahead ▸ List.mem_cons_self ..)
      rw [isAtEnd, bind_of_ok (peek_cons h hahead), beq_false_of_ne ht]
      rfl

/-- The token has been read last. -/
def Place.Behind (p : Place) (t : Token) : Prop :=
  ∃ i, p.current = i + 1 ∧ p.tokens[i]? = some t

theorem Place.Behind.previous (h : p.Behind t) : previous p = .ok t p := by
  obtain ⟨i, hcurrent, hlook⟩ := h
  unfold Indexed.previous
  rw [hcurrent]
  dsimp only
  rw [hlook]

theorem advance_cons (h : p.At c) (hahead : c.ahead = t :: ts) :
    ∃ q, advance p = .ok t q ∧ q.Behind t ∧ q.At { c with ahead := ts } ∧ Moves p q ∧
      q.current = p.current + 1 := by
  have hlook : p.tokens[p.current]? = some t := h.getElem?_current hahead
  have hend : isAtEnd p = .ok false p.noted := by
    rw [isAtEnd_eq h, hahead]
    rfl
  have hbehind : Place.Behind { p.noted with current := p.current + 1 } t := ⟨_, rfl, hlook⟩
  refine ⟨{ p.noted with current := p.current + 1 }, ?_, hbehind, h.noted.tail hahead, ?_, rfl⟩
  · rw [advance, bind_of_ok hend]
    exact hbehind.previous
  · refine (Moves.noted p).trans (.of_trace rfl ⟨Nat.le_succ _, List.prefix_rfl⟩ rfl)

theorem check_eq (kind : Kind) (h : p.At c) :
    ∃ q, check kind p = .ok (c.ahead.head?.any (·.kind == kind)) q ∧ q.At c ∧ Moves p q ∧
      q.current = p.current := by
  rw [check, bind_of_ok (isAtEnd_eq h)]
  cases hahead : c.ahead with
  | nil => exact ⟨p.noted, rfl, h.noted, .noted p, rfl⟩
  | cons t ts =>
      have hpeek : peek p.noted = .ok t p.noted.noted := peek_cons h.noted hahead
      refine ⟨p.noted.noted, ?_, h.noted.noted, (Moves.noted p).trans (.noted _), rfl⟩
      change (peek >>= fun t => Pure.pure (t.kind == kind) : Parser Bool) p.noted = _
      rw [bind_of_ok hpeek]
      rfl

theorem follows_isAtEnd : Follows j k 0 isAtEnd atEnd := by
  intro p c hat _ _
  rw [isAtEnd_eq hat, atEnd_eq]
  exact .ok hat.noted (.noted p) (Nat.le_refl _)

theorem follows_check (kind : Kind) : Follows j k 0 (check kind) (sees kind) := by
  intro p c hat _ _
  obtain ⟨q, hrun, hat', hmoves, hcurrent⟩ := check_eq kind hat
  rw [hrun, sees_eq]
  exact .ok hat' hmoves (by omega)

theorem follows_record (e : SyntaxError) : Follows j k 0 (record e) (Grammar.record e) := by
  intro p c hat _ _
  refine .ok ⟨hat.ahead, hat.genuine, hat.nextId, ?_⟩ (.of_trace rfl ?_ rfl) (Nat.le_refl _)
  · exact congrArg (· ++ [e]) hat.errors
  · exact ⟨Nat.le_refl _, List.prefix_append ..⟩

theorem follows_reference (name : Token) :
    Follows j k 0 (reference name) (Grammar.reference name) := by
  rintro p ⟨ahead, id, errors⟩ hat - -
  obtain rfl : p.nextId = id := hat.nextId
  exact .ok ⟨hat.ahead, hat.genuine, rfl, hat.errors⟩ (.of_trace rfl (.refl _) rfl) (Nat.le_refl _)

/-- An error at the token under the position is one at what is found ahead. -/
theorem errorAt_peek (cause : SyntaxCause) (h : p.At c) :
    ∃ u, peek p = .ok u p.noted ∧ errorAt u cause = ⟨c.ahead.head?, cause⟩ := by
  cases hahead : c.ahead with
  | nil =>
      obtain ⟨stop, hstop, hpeek⟩ := peek_nil h hahead
      exact ⟨stop, hpeek, by rw [errorAt, if_pos hstop]; rfl⟩
  | cons t ts =>
      have ht : t.kind ≠ .eof := h.genuine t (hahead ▸ List.mem_cons_self ..)
      exact ⟨t, peek_cons h hahead, by rw [errorAt, if_neg ht]; rfl⟩

theorem follows_refuse (cause : SyntaxCause) :
    Follows j k n (do throw (.refused (errorAt (← peek) cause)) : Parser α) (refuse cause) := by
  intro p c hat _ _
  obtain ⟨u, hpeek, herror⟩ := errorAt_peek cause hat
  rw [bind_of_ok hpeek, refuse_eq, ← herror]
  exact .error hat.noted (.noted p)

/-- Taking the token next to the position, once it is known to pass a test. -/
theorem Agrees.advance {f : Token → Parser α} {y : Reader α} (hat : p.At c)
    (hahead : c.ahead = t :: ts) (hk : c.ahead.length < k + 1) (hf : Follows 0 k n (f t) y) :
    Agrees (1 + n) p ((advance >>= f) p) (y { c with ahead := ts }) := by
  obtain ⟨q, hrun, -, hat', hmoves, hcurrent⟩ := advance_cons hat hahead
  rw [bind_of_ok hrun]
  rw [hahead] at hk
  refine (hf q _ hat' (Nat.zero_le _) ?_).after hmoves (Nat.le_of_eq hcurrent.symm)
  exact Nat.lt_of_succ_lt_succ hk

/-- A test that takes the token which passes it, and a reader that gives this token afterwards. -/
def Takes (test : Kind → Bool) (x : Parser Bool) (y : Parser Token) : Prop :=
  ∀ p c, p.At c →
    (∀ t ts, c.ahead = t :: ts → test t.kind = true →
      ∃ m q, x p = .ok true m ∧ y m = .ok t q ∧ q.At { c with ahead := ts } ∧ Moves p q ∧
        q.current = p.current + 1) ∧
    ((∀ t ∈ c.ahead.head?, test t.kind = false) →
      ∃ q, x p = .ok false q ∧ q.At c ∧ Moves p q)

/-- What comes behind a token that passes a test, and what stands there if none does. -/
theorem Takes.bind {test : Kind → Bool} {x : Parser Bool} {y : Parser Token} {f : Token → Parser α}
    {g : Option Token → Reader α} {absent : Parser α} {n' : Nat} (h : Takes test x y)
    (hf : ∀ t, test t.kind = true → Follows 0 k n (f t) (g (some t)))
    (habsent : Follows j (k + 1) n' absent (g none)) (hn : n' ≤ n + 1) :
    Follows j (k + 1) n' (x >>= fun taken => if taken = true then y >>= f else absent)
      (takeIf test >>= g) := by
  rintro p ⟨ahead, id, errors⟩ hat hj hk
  by_cases hnext : ∀ t ∈ ahead.head?, test t.kind = false
  · obtain ⟨q, hrun, hat', hmoves⟩ := (h p _ hat).2 hnext
    rw [bind_of_ok hrun, bind_of_ok (takeIf_of_none hnext)]
    have hagrees := (habsent q _ hat' hj hk).after (m := 0) hmoves hmoves.onward.1
    rwa [Nat.zero_add] at hagrees
  · obtain ⟨t, ht, htest⟩ : ∃ t ∈ ahead.head?, test t.kind = true := by
      simpa using hnext
    obtain ⟨ts, rfl⟩ : ∃ ts, ahead = t :: ts := by
      cases ahead with
      | nil => cases ht
      | cons u us => exact ⟨us, by cases ht; rfl⟩
    obtain ⟨m, q, hrun, htoken, hat', hmoves, hcurrent⟩ := (h p _ hat).1 t ts rfl htest
    rw [bind_of_ok hrun, bind_of_ok ((takeIf_cons test).trans (if_pos htest))]
    change Agrees n' p ((y >>= f) m) _
    rw [bind_of_ok htoken]
    have hagrees := (hf t htest q _ hat' (Nat.zero_le _) (Nat.lt_of_succ_lt_succ hk)).after hmoves
      (Nat.le_of_eq hcurrent.symm)
    exact hagrees.weaken (by omega)

theorem check_present (h : p.At c) (hnext : Begins kind c.ahead) :
    ∃ q, check kind p = .ok true q ∧ q.At c ∧ Moves p q ∧ q.current = p.current := by
  have hsees := sees_eq_true hnext
  rw [sees_eq] at hsees
  injection hsees with hany
  exact hany ▸ check_eq kind h

theorem check_absent (h : p.At c) (hnext : ¬Begins kind c.ahead) :
    ∃ q, check kind p = .ok false q ∧ q.At c ∧ Moves p q ∧ q.current = p.current := by
  have hsees := sees_eq_false hnext
  rw [sees_eq] at hsees
  injection hsees with hany
  exact hany ▸ check_eq kind h

theorem accept_present (h : p.At c) (hahead : c.ahead = t :: ts) (ht : t.kind = kind) :
    ∃ q, accept kind p = .ok true q ∧ q.Behind t ∧ q.At { c with ahead := ts } ∧
      Moves p q ∧ q.current = p.current + 1 := by
  have hnext : Begins kind c.ahead := ⟨t, by rw [hahead]; rfl, ht⟩
  obtain ⟨m, hcheck, hat, hmoves, hcurrent⟩ := check_present h hnext
  obtain ⟨q, hrun, htoken, hat', hmoves', hcurrent'⟩ := advance_cons hat hahead
  refine ⟨q, ?_, htoken, hat', hmoves.trans hmoves', by omega⟩
  rw [accept, bind_of_ok hcheck]
  exact bind_of_ok hrun

theorem accept_absent (h : p.At c) (hnext : ¬Begins kind c.ahead) :
    ∃ q, accept kind p = .ok false q ∧ q.At c ∧ Moves p q := by
  obtain ⟨q, hcheck, hat, hmoves, -⟩ := check_absent h hnext
  exact ⟨q, by rw [accept, bind_of_ok hcheck]; rfl, hat, hmoves⟩

theorem takes_accept (kind : Kind) : Takes (· == kind) (accept kind) previous := by
  intro p c hat
  constructor
  · intro t ts hahead htest
    obtain ⟨q, hrun, hbehind, hrest⟩ := accept_present hat hahead (beq_iff_eq.mp htest)
    exact ⟨q, q, hrun, hbehind.previous, hrest⟩
  · intro hnext
    refine accept_absent hat ?_
    rintro ⟨t, ht, hkind⟩
    exact beq_eq_false_iff_ne.mp (hnext t ht) hkind

/-- From one place to another at the same cursor, nothing has been read. -/
theorem Moves.current_eq (h : Moves p q) (hp : p.At c) (hq : q.At c) : q.current = p.current := by
  have hlength := hp.length
  have hlength' := hq.length
  rw [h.tokens] at hlength'
  omega

/-- Two tests, the second made if the first one fails. -/
theorem Takes.or {test test' : Kind → Bool} {x x' : Parser Bool} {y : Parser Token}
    (h : Takes test x y) (h' : Takes test' x' y) :
    Takes (fun kind => test kind || test' kind) (x <||> x') y := by
  intro p c hat
  constructor
  · intro t ts hahead htest
    cases hfirst : test t.kind with
    | true =>
        obtain ⟨m, q, hrun, htoken⟩ := (h p c hat).1 t ts hahead hfirst
        exact ⟨m, q, by rw [orM, bind_of_ok hrun]; rfl, htoken⟩
    | false =>
        have hnext : ∀ u ∈ c.ahead.head?, test u.kind = false := by
          rw [hahead]
          rintro u ⟨⟩
          exact hfirst
        obtain ⟨u, hrun, hat', hmoves⟩ := (h p c hat).2 hnext
        have hsecond : test' t.kind = true := by simpa [hfirst] using htest
        obtain ⟨m, q, hrun', htoken, hat'', hmoves', hcurrent⟩ :=
          (h' u c hat').1 t ts hahead hsecond
        exact ⟨m, q, by rw [orM, bind_of_ok hrun]; exact hrun', htoken, hat'', hmoves.trans hmoves',
          by rw [hcurrent, hmoves.current_eq hat hat']⟩
  · intro hnext
    obtain ⟨u, hrun, hat', hmoves⟩ :=
      (h p c hat).2 fun t ht => (Bool.or_eq_false_iff.mp (hnext t ht)).1
    obtain ⟨q, hrun', hat'', hmoves'⟩ :=
      (h' u c hat').2 fun t ht => (Bool.or_eq_false_iff.mp (hnext t ht)).2
    exact ⟨q, by rw [orM, bind_of_ok hrun]; exact hrun', hat'', hmoves.trans hmoves'⟩

theorem anyM_check_eq (operators : List Kind) (h : p.At c) :
    ∃ q, operators.anyM check p = .ok (c.ahead.head?.any (operators.contains ·.kind)) q ∧ q.At c ∧
      Moves p q ∧ q.current = p.current := by
  induction operators generalizing p with
  | nil => exact ⟨p, by cases c.ahead <;> rfl, h, .refl p, rfl⟩
  | cons kind kinds ih =>
      obtain ⟨q, hcheck, hat, hmoves, hcurrent⟩ := check_eq kind h
      obtain ⟨u, hrest, hat', hmoves', hcurrent'⟩ := ih hat
      rw [List.anyM, bind_of_ok hcheck]
      cases hahead : c.ahead with
      | nil =>
          rw [hahead] at hrest
          exact ⟨u, hrest, hat', hmoves.trans hmoves', by omega⟩
      | cons t ts =>
          rw [hahead] at hrest
          simp only [List.head?_cons, Option.any_some, List.contains_cons] at hrest ⊢
          cases htest : t.kind == kind with
          | true => exact ⟨q, rfl, hat, hmoves, hcurrent⟩
          | false => exact ⟨u, hrest, hat', hmoves.trans hmoves', by omega⟩

theorem takes_any (operators : List Kind) :
    Takes operators.contains (operators.anyM check) advance := by
  intro p c hat
  obtain ⟨q, htest, hat', hmoves, hcurrent⟩ := anyM_check_eq operators hat
  constructor
  · intro t ts hahead hpass
    obtain ⟨u, hrun, -, hat'', hmoves', hcurrent'⟩ := advance_cons hat' hahead
    rw [hahead] at htest
    exact ⟨q, u, by rw [htest, ← hpass]; rfl, hrun, hat'', hmoves.trans hmoves', by omega⟩
  · intro hnext
    refine ⟨q, ?_, hat', hmoves⟩
    rw [htest]
    cases hhead : c.ahead.head? with
    | none => rfl
    | some t => rw [← hnext t hhead]; rfl

theorem follows_accept (kind : Kind) : Follows j k 0 (accept kind) (Grammar.accept kind) := by
  rintro p ⟨ahead, id, errors⟩ hat - -
  by_cases hnext : Begins kind ahead
  · obtain ⟨t, ts, rfl, hkind⟩ := exists_cons_of_begins hnext
    obtain ⟨q, hrun, -, hat', hmoves, -⟩ := accept_present hat rfl hkind
    rw [hrun, accept_cons hkind]
    exact .ok hat' hmoves hmoves.onward.1
  · obtain ⟨q, hrun, hat', hmoves⟩ := accept_absent hat hnext
    rw [hrun, accept_of_not_begins (c := ⟨ahead, id, errors⟩) hnext]
    exact .ok hat' hmoves hmoves.onward.1

/-- What comes behind an accepted first token, and what stands there if none is accepted. -/
theorem follows_first {f : Bool → Parser α} {g : Bool → Reader α} {n' : Nat}
    (hf : Follows 0 k n (f true) (g true)) (habsent : Follows j (k + 1) n' (f false) (g false))
    (hn : n' ≤ n + 1) : Follows j (k + 1) n' (accept kind >>= f) (Grammar.accept kind >>= g) := by
  rintro p ⟨ahead, id, errors⟩ hat hj hk
  by_cases hnext : Begins kind ahead
  · obtain ⟨t, ts, rfl, hkind⟩ := exists_cons_of_begins hnext
    obtain ⟨q, hrun, -, hat', hmoves, hcurrent⟩ := accept_present hat rfl hkind
    rw [bind_of_ok hrun, bind_of_ok (accept_cons hkind)]
    exact ((hf q _ hat' (Nat.zero_le _) (Nat.lt_of_succ_lt_succ hk)).after hmoves
      (Nat.le_of_eq hcurrent.symm)).weaken (by omega)
  · obtain ⟨q, hrun, hat', hmoves⟩ := accept_absent hat hnext
    rw [bind_of_ok hrun, bind_of_ok (accept_of_not_begins (c := ⟨ahead, id, errors⟩) hnext)]
    exact ((habsent q _ hat' hj hk).after (m := 0) hmoves hmoves.onward.1).weaken (by omega)

theorem follows_expect (kind : Kind) (cause : SyntaxCause) :
    Follows j k 1 (expect kind cause) (Grammar.expect kind cause) := by
  rintro p ⟨ahead, id, errors⟩ hat - -
  rw [expect]
  by_cases hnext : Begins kind ahead
  · obtain ⟨m, hcheck, hat', hmoves, hcurrent⟩ := check_present hat hnext
    obtain ⟨t, ts, rfl, hkind⟩ := exists_cons_of_begins hnext
    obtain ⟨q, hrun, -, hat'', hmoves', hcurrent'⟩ := advance_cons hat' rfl
    rw [bind_of_ok hcheck, if_pos rfl, hrun, expect_cons hkind]
    exact .ok hat'' (hmoves.trans hmoves') (by omega)
  · obtain ⟨m, hcheck, hat', hmoves, hcurrent⟩ := check_absent hat hnext
    rw [bind_of_ok hcheck, if_neg Bool.false_ne_true,
      expect_of_not_begins (c := ⟨ahead, id, errors⟩) hnext]
    obtain ⟨u, hpeek, herror⟩ := errorAt_peek cause hat'
    rw [bind_of_ok hpeek, herror]
    exact .error hat'.noted (hmoves.trans (.noted m))

/-! ### Looking before a choice -/

theorem follows_peek {f : Token → Parser α} {g : Option Token → Reader α}
    (hsome : ∀ p c t ts, p.At c → c.ahead = t :: ts → j ≤ c.ahead.length → c.ahead.length < k →
      Agrees n p (f t p) (g (some t) c))
    (hnone : ∀ p c stop, p.At c → c.ahead = [] → stop.kind = .eof →
      Agrees n p (f stop p) (g none c)) : Follows j k n (peek >>= f) (next? >>= g) := by
  rintro p c hat hj hk
  rw [bind_of_ok next?_eq]
  have hmoves : Moves p p.noted := .noted p
  rw [← Nat.zero_add n]
  cases hahead : c.ahead with
  | nil =>
      obtain ⟨stop, hstop, hpeek⟩ := peek_nil hat hahead
      rw [bind_of_ok hpeek]
      exact (hnone _ c stop hat.noted hahead hstop).after hmoves (Nat.le_refl _)
  | cons t ts =>
      rw [bind_of_ok (peek_cons hat hahead)]
      exact (hsome _ c t ts hat.noted hahead hj hk).after hmoves (Nat.le_refl _)

theorem goesOn_eq (h : p.At c) :
    ∃ q, goesOn p = .ok (!(c.ahead.head?.any (·.kind == .rightBrace) || c.ahead.isEmpty)) q ∧
      q.At c ∧ Moves p q := by
  obtain ⟨m, hcheck, hat, hmoves, -⟩ := check_eq .rightBrace h
  rw [goesOn, bind_of_ok hcheck]
  cases c.ahead.head?.any (·.kind == .rightBrace) with
  | true => exact ⟨m, rfl, hat, hmoves⟩
  | false =>
      refine ⟨m.noted, ?_, hat.noted, hmoves.trans (.noted m)⟩
      exact bind_of_ok (isAtEnd_eq hat)

/-- A repetition ends at a closing brace and at the end; otherwise there is something to read. -/
theorem follows_goesOn {x : Parser α} {y : Reader α} (a : α) (h : Follows 1 k 0 x y) :
    Follows 0 k 0 (do if ← goesOn then x else return a)
      (do if (← sees .rightBrace) || (← atEnd) then return a else y) := by
  intro p c hat hj hk
  obtain ⟨q, hrun, hat', hmoves⟩ := goesOn_eq hat
  have hlist : (do if (← sees .rightBrace) || (← atEnd) then return a else y : Reader α) c =
      (if c.ahead.head?.any (·.kind == .rightBrace) || c.ahead.isEmpty then Pure.pure a else y) c :=
    rfl
  rw [bind_of_ok hrun, hlist]
  cases hstop : c.ahead.head?.any (·.kind == .rightBrace) || c.ahead.isEmpty with
  | true => exact .ok hat' hmoves hmoves.onward.1
  | false =>
      have hahead : c.ahead ≠ [] := by
        intro hnil
        simp [hnil] at hstop
      exact (h q c hat' (List.length_pos_iff.mpr hahead) hk).after (m := 0) hmoves hmoves.onward.1

theorem checkNext_eq (h : p.At c) (hahead : c.ahead = t :: ts) (hkind : kind ≠ .eof) :
    checkNext kind p = .ok (ts.head?.any (·.kind == kind)) p := by
  obtain ⟨stop, hstop, hdrop⟩ := h.ahead
  have hlook : p.tokens[p.current + 1]? = (ts ++ [stop]).head? := by
    rw [← List.head?_drop, ← List.drop_drop, hdrop, hahead]
    rfl
  have hany : p.tokens[p.current + 1]?.any (·.kind == kind) = ts.head?.any (·.kind == kind) := by
    rw [hlook]
    cases ts with
    | nil => simp [hstop, hkind.symm]
    | cons u us => rfl
  exact congrArg (EStateM.Result.ok · p) hany

theorem seesNamedFunction_eq (h : p.At c) :
    ∃ b q, seesNamedFunction p = .ok b q ∧ Grammar.seesNamedFunction c = .ok b c ∧ q.At c ∧
      Moves p q ∧ (b = true → ∃ t ts, c.ahead = t :: ts) := by
  obtain ⟨ahead, id, errors⟩ := c
  by_cases hnext : Begins .kwFun ahead
  · obtain ⟨m, hcheck, hat, hmoves, -⟩ := check_present h hnext
    obtain ⟨t, ts, rfl, hkind⟩ := exists_cons_of_begins hnext
    refine ⟨_, m, (bind_of_ok hcheck).trans (checkNext_eq hat rfl (by decide)), ?_, hat, hmoves,
      fun _ => ⟨t, ts, rfl⟩⟩
    cases ts with
    | nil => rfl
    | cons u us => exact congrArg (fun b => EStateM.Result.ok (b && _) _) (beq_iff_eq.mpr hkind)
  · obtain ⟨m, hcheck, hat, hmoves, -⟩ := check_absent h hnext
    refine ⟨false, m, bind_of_ok hcheck, ?_, hat, hmoves, by simp⟩
    rcases ahead with _ | ⟨t, _ | ⟨u, us⟩⟩
    · rfl
    · rfl
    · have hkind : (t.kind == .kwFun) = false := beq_false_of_ne fun ht => hnext (begins_cons.mpr ht)
      exact congrArg (fun b => EStateM.Result.ok (b && _) _) hkind

/-! ### Recovery -/

theorem skipping_at_end (h : p.At c) (hahead : c.ahead = []) (hn : 0 < n) :
    skipping n p = .ok () p.noted := by
  obtain ⟨n, rfl⟩ : ∃ m, n = m + 1 := ⟨n - 1, by omega⟩
  rw [skipping, bind_of_ok (isAtEnd_eq h), hahead]
  rfl

theorem skipping_behind_semicolon (h : p.At c) (hbehind : p.Behind t) (ht : t.kind = .semicolon)
    (hn : 0 < n) : ∃ q, skipping n p = .ok () q ∧ q.At c ∧ Moves p q := by
  refine ⟨p.noted, ?_, h.noted, .noted p⟩
  cases hahead : c.ahead with
  | nil => exact skipping_at_end h hahead hn
  | cons u us =>
      obtain ⟨n, rfl⟩ : ∃ m, n = m + 1 := ⟨n - 1, by omega⟩
      have hprevious : previous p.noted = .ok t p.noted := Place.Behind.previous hbehind
      rw [skipping, bind_of_ok (isAtEnd_eq h), hahead]
      change (previous >>= fun _ => _) p.noted = _
      rw [bind_of_ok hprevious, if_pos (beq_iff_eq.mpr ht)]
      rfl

theorem skipping_eq (h : p.At c) (hbehind : p.Behind t) (ht : t.kind ≠ .semicolon)
    (hn : c.ahead.length < n) :
    ∃ q, skipping n p = .ok () q ∧ q.At { c with ahead := resume c.ahead } ∧ Moves p q := by
  induction n generalizing p c t with
  | zero => omega
  | succ n ih =>
      have hprevious : previous p.noted = .ok t p.noted := Place.Behind.previous hbehind
      rw [skipping, bind_of_ok (isAtEnd_eq h)]
      obtain ⟨ahead, id, errors⟩ := c
      cases ahead with
      | nil => exact ⟨p.noted, rfl, h.noted, .noted p⟩
      | cons u us =>
          change ∃ q, (previous >>= fun _ => _) p.noted = .ok () q ∧ _
          rw [bind_of_ok hprevious, if_neg (by simpa using ht), bind_of_ok (peek_cons h.noted rfl)]
          have hmoves : Moves p p.noted.noted := (Moves.noted p).trans (.noted _)
          rw [resume]
          by_cases hbegins : beginsStatement u.kind = true
          · rw [if_pos hbegins, if_pos hbegins]
            exact ⟨p.noted.noted, rfl, h.noted.noted, hmoves⟩
          · rw [if_neg hbegins, if_neg hbegins]
            obtain ⟨q, hrun, hbehind', hat, hmoves', -⟩ := advance_cons h.noted.noted rfl
            have hlength : us.length < n := Nat.lt_of_succ_lt_succ hn
            rw [bind_of_ok hrun]
            by_cases hu : u.kind = .semicolon
            · obtain ⟨v, hrest, hat', hmoves''⟩ :=
                skipping_behind_semicolon hat hbehind' hu (Nat.zero_lt_of_lt hlength)
              rw [if_pos hu]
              exact ⟨v, hrest, hat', hmoves.trans (hmoves'.trans hmoves'')⟩
            · obtain ⟨v, hrest, hat', hmoves''⟩ := ih hat hbehind' hu hlength
              rw [if_neg hu]
              exact ⟨v, hrest, hat', hmoves.trans (hmoves'.trans hmoves'')⟩

/-- Recovery passes over a token at least, unless it starts at the end. -/
theorem synchronize_eq (h : p.At c) (hcurrent : c.ahead = [] → p.current ≠ 0) (hn : c.ahead.length ≤ n)
    (hpos : 0 < n) :
    ∃ q, synchronize n p = .ok () q ∧ q.At { c with ahead := synchronized c.ahead } ∧ Moves p q ∧
      (c.ahead ≠ [] → p.current < q.current) := by
  obtain ⟨ahead, id, errors⟩ := c
  rw [synchronize]
  cases ahead with
  | nil =>
      obtain ⟨i, hi⟩ := Nat.exists_eq_succ_of_ne_zero (hcurrent rfl)
      have hlength := h.length
      have hinside : i < p.tokens.length := by omega
      have hbehind : p.noted.Behind p.tokens[i] := ⟨i, hi, List.getElem?_eq_getElem hinside⟩
      have hadvance : advance p = .ok p.tokens[i] p.noted := by
        rw [advance, bind_of_ok (isAtEnd_eq h)]
        exact hbehind.previous
      rw [bind_of_ok hadvance, skipping_at_end h.noted rfl hpos]
      exact ⟨_, rfl, h.noted.noted, (Moves.noted p).trans (.noted _), fun hne => (hne rfl).elim⟩
  | cons t ts =>
      obtain ⟨q, hrun, hbehind, hat, hmoves, hnext⟩ := advance_cons h rfl
      rw [bind_of_ok hrun, synchronized]
      by_cases ht : t.kind = .semicolon
      · obtain ⟨u, hrest, hat', hmoves'⟩ := skipping_behind_semicolon hat hbehind ht hpos
        rw [if_pos ht]
        have honward := hmoves'.onward.1
        exact ⟨u, hrest, hat', hmoves.trans hmoves', fun _ => by
          simp only [Place.moment] at honward; omega⟩
      · obtain ⟨u, hrest, hat', hmoves'⟩ := skipping_eq hat hbehind ht hn
        rw [if_neg ht]
        have honward := hmoves'.onward.1
        exact ⟨u, hrest, hat', hmoves.trans hmoves', fun _ => by
          simp only [Place.moment] at honward; omega⟩

end LoxLang.Grammar.Indexed
