import LoxLang.Proofs.Grammar.Derivation

/-!
What the elementary readers do to a cursor. The lemmas on a successful outcome take readers apart, those
on a given cursor run them.
-/

namespace LoxLang.Grammar

variable {α β : Type} {c d : Cursor} {t : Token} {ts : List Token} {i : Identity}
  {es : List SyntaxError} {kind : Kind} {cause : SyntaxCause}

/-- What a cursor has ahead of it. -/
def Cursor.input (c : Cursor) : Input :=
  ⟨c.ahead, c.nextId⟩

@[simp]
theorem Cursor.input_mk : (Cursor.mk ts i es).input = ⟨ts, i⟩ :=
  rfl

/-- Whether the next token is of the given kind. -/
def Begins (kind : Kind) (ts : List Token) : Prop :=
  ∃ t ∈ ts.head?, t.kind = kind

@[simp]
theorem begins_nil : ¬Begins kind [] := by
  simp [Begins]

@[simp]
theorem begins_cons : Begins kind (t :: ts) ↔ t.kind = kind := by
  simp [Begins]

theorem exists_cons_of_begins (h : Begins kind ts) : ∃ t rest, ts = t :: rest ∧ t.kind = kind := by
  cases ts with
  | nil => exact (begins_nil h).elim
  | cons t rest => exact ⟨t, rest, rfl, begins_cons.mp h⟩

theorem Begins.unique {kind' : Kind} (h : Begins kind ts) (h' : Begins kind' ts) : kind = kind' := by
  obtain ⟨t, ht, rfl⟩ := h
  obtain ⟨t', ht', rfl⟩ := h'
  cases Option.mem_unique ht ht'
  rfl

/-! ### Successful outcomes -/

theorem bind_ok_iff {ε σ : Type} {x : EStateM ε σ α} {f : α → EStateM ε σ β} {b : β} {c d : σ} :
    (x >>= f) c = .ok b d ↔ ∃ a m, x c = .ok a m ∧ f a m = .ok b d := by
  change EStateM.bind x f c = _ ↔ _
  unfold EStateM.bind
  cases x c with
  | ok a m =>
      simp only [EStateM.Result.ok.injEq]
      constructor
      · intro h
        exact ⟨a, m, ⟨rfl, rfl⟩, h⟩
      · rintro ⟨_, _, ⟨rfl, rfl⟩, h⟩
        exact h
  | error e m => simp

/-- Two ways to begin may go on alike. -/
theorem ite_bind_ok_iff {p : Prop} [Decidable p] {x y : Reader α} {f : α → Reader β} {b : β} :
    (if p then x >>= f else y >>= f) c = .ok b d ↔
      ∃ a m, (if p then x else y) c = .ok a m ∧ f a m = .ok b d := by
  split <;> exact bind_ok_iff

theorem map_ok_iff {x : Reader α} {f : α → β} {b : β} :
    (f <$> x) c = .ok b d ↔ ∃ a, x c = .ok a d ∧ f a = b := by
  change EStateM.map f x c = _ ↔ _
  unfold EStateM.map
  cases x c with
  | ok a m =>
      simp only [EStateM.Result.ok.injEq]
      constructor
      · rintro ⟨rfl, rfl⟩
        exact ⟨a, ⟨rfl, rfl⟩, rfl⟩
      · rintro ⟨_, ⟨rfl, rfl⟩, rfl⟩
        exact ⟨rfl, rfl⟩
  | error e m => simp

theorem pure_ok_iff {a b : α} : (pure a : Reader α) c = .ok b d ↔ a = b ∧ c = d := by
  change EStateM.Result.ok a c = _ ↔ _
  simp

theorem refuse_eq : (refuse cause : Reader α) c = .error ⟨c.ahead.head?, cause⟩ c :=
  rfl

theorem refuse_ok_iff {b : α} : (refuse cause : Reader α) c = .ok b d ↔ False := by
  simp [refuse_eq]

theorem skip_ok_iff {u : Unit} : skip c = .ok u d ↔ d = { c with ahead := c.ahead.tail } := by
  change EStateM.Result.ok () _ = _ ↔ _
  simp [eq_comm]

theorem takeIf_cons (test : Kind → Bool) :
    takeIf test ⟨t :: ts, i, es⟩ =
      if test t.kind then .ok (some t) ⟨ts, i, es⟩ else .ok none ⟨t :: ts, i, es⟩ := by
  change (if test t.kind then _ else _ : Reader (Option Token)) _ = _
  split <;> rfl

theorem takeIf_nil (test : Kind → Bool) : takeIf test ⟨[], i, es⟩ = .ok none ⟨[], i, es⟩ :=
  rfl

theorem takeIf_ok {test : Kind → Bool} {o : Option Token} (h : takeIf test c = .ok o d) :
    (∃ t, o = some t ∧ test t.kind ∧ c = ⟨t :: d.ahead, d.nextId, d.errors⟩) ∨
      (o = none ∧ d = c ∧ ∀ t ∈ c.ahead.head?, test t.kind = false) := by
  obtain ⟨ts, i, es⟩ := c
  cases ts with
  | nil =>
      rw [takeIf_nil] at h
      cases h
      exact .inr ⟨rfl, rfl, by simp⟩
  | cons t ts =>
      rw [takeIf_cons] at h
      split at h
      · cases h
        exact .inl ⟨t, rfl, ‹_›, rfl⟩
      · cases h
        exact .inr ⟨rfl, rfl, by simp_all⟩

theorem accept_ok {b : Bool} (h : accept kind c = .ok b d) :
    (b = true ∧ ∃ t, t.kind = kind ∧ c = ⟨t :: d.ahead, d.nextId, d.errors⟩) ∨
      (b = false ∧ d = c ∧ ¬Begins kind c.ahead) := by
  obtain ⟨o, m, ho, hb⟩ := bind_ok_iff.mp h
  obtain ⟨rfl, rfl⟩ := pure_ok_iff.mp hb
  rcases takeIf_ok ho with ⟨t, rfl, ht, hc⟩ | ⟨rfl, hd, ht⟩
  · exact .inl ⟨rfl, t, by simpa using ht, hc⟩
  · refine .inr ⟨rfl, hd, ?_⟩
    rintro ⟨t, hmem, hk⟩
    simpa [hk] using ht t hmem

theorem expect_ok (h : expect kind cause c = .ok t d) :
    t.kind = kind ∧ c = ⟨t :: d.ahead, d.nextId, d.errors⟩ := by
  obtain ⟨o, m, ho, hb⟩ := bind_ok_iff.mp h
  rcases takeIf_ok ho with ⟨t', rfl, ht, hc⟩ | ⟨rfl, hd, -⟩
  · obtain ⟨rfl, rfl⟩ := pure_ok_iff.mp hb
    exact ⟨by simpa using ht, hc⟩
  · exact (refuse_ok_iff.mp hb).elim

theorem sees_eq : sees kind c = .ok (c.ahead.head?.any (·.kind == kind)) c :=
  rfl

theorem atEnd_eq : atEnd c = .ok c.ahead.isEmpty c :=
  rfl

theorem next?_eq : next? c = .ok c.ahead.head? c :=
  rfl

theorem reference_eq (name : Token) :
    reference name c = .ok ⟨c.nextId, name⟩ ⟨c.ahead, c.nextId + 1, c.errors⟩ :=
  rfl

theorem record_eq (e : SyntaxError) :
    record e c = .ok () ⟨c.ahead, c.nextId, c.errors ++ [e]⟩ :=
  rfl

/-! ### Runs on a given cursor -/

theorem bind_of_ok {ε σ : Type} {x : EStateM ε σ α} {f : α → EStateM ε σ β} {a : α} {c d : σ}
    (h : x c = .ok a d) : (x >>= f) c = f a d := by
  change EStateM.bind x f c = _
  simp [EStateM.bind, h]

theorem bind_of_error {ε σ : Type} {x : EStateM ε σ α} {f : α → EStateM ε σ β} {e : ε} {c d : σ}
    (h : x c = .error e d) : (x >>= f) c = .error e d := by
  change EStateM.bind x f c = _
  simp [EStateM.bind, h]

theorem map_of_ok {x : Reader α} {f : α → β} {a : α} (h : x c = .ok a d) :
    (f <$> x) c = .ok (f a) d := by
  change EStateM.map f x c = _
  simp [EStateM.map, h]

theorem recovering_of_ok {read : Reader α} {a : α} (h : read c = .ok a d) :
    recovering read c = .ok (some a) d := by
  simp [recovering, h]

theorem recovering_of_error {read : Reader α} {e : SyntaxError} (h : read c = .error e d) :
    recovering read c =
      .ok none { d with ahead := synchronized d.ahead, errors := d.errors ++ [e] } := by
  simp [recovering, h]

theorem expect_cons (h : t.kind = kind) :
    expect kind cause ⟨t :: ts, i, es⟩ = .ok t ⟨ts, i, es⟩ := by
  rw [expect, bind_of_ok (takeIf_cons _ |>.trans (if_pos (by simpa using h)))]
  rfl

theorem accept_cons (h : t.kind = kind) :
    accept kind ⟨t :: ts, i, es⟩ = .ok true ⟨ts, i, es⟩ := by
  rw [accept, bind_of_ok (takeIf_cons _ |>.trans (if_pos (by simpa using h)))]
  rfl

theorem takeIf_of_none {test : Kind → Bool} (h : ∀ t ∈ c.ahead.head?, test t.kind = false) :
    takeIf test c = .ok none c := by
  obtain ⟨ts, i, es⟩ := c
  cases ts with
  | nil => rfl
  | cons t ts => rw [takeIf_cons, if_neg (by simpa using h t rfl)]

theorem accept_of_not_begins (h : ¬Begins kind c.ahead) : accept kind c = .ok false c := by
  have hnone : takeIf (· == kind) c = .ok none c := takeIf_of_none fun t ht => by
    simpa using fun hk => h ⟨t, ht, hk⟩
  rw [accept, bind_of_ok hnone]
  rfl

theorem expect_of_not_begins (h : ¬Begins kind c.ahead) :
    expect kind cause c = .error ⟨c.ahead.head?, cause⟩ c := by
  have hnone : takeIf (· == kind) c = .ok none c := takeIf_of_none fun t ht => by
    simpa using fun hk => h ⟨t, ht, hk⟩
  rw [expect, bind_of_ok hnone]
  rfl

theorem sees_eq_true (h : Begins kind c.ahead) : sees kind c = .ok true c := by
  obtain ⟨t, ht, hk⟩ := h
  rw [sees_eq, Option.mem_def.mp ht]
  simp [hk]

theorem sees_eq_false (h : ¬Begins kind c.ahead) : sees kind c = .ok false c := by
  rw [sees_eq]
  cases hhead : c.ahead.head? with
  | none => rfl
  | some t =>
      have hk : ¬t.kind = kind := fun hk => h ⟨t, hhead, hk⟩
      simp [hk]

theorem sees_ok {b : Bool} (h : sees kind c = .ok b d) :
    d = c ∧ (b = true ↔ Begins kind c.ahead) := by
  by_cases hb : Begins kind c.ahead
  · rw [sees_eq_true hb] at h
    cases h
    exact ⟨rfl, by simp [hb]⟩
  · rw [sees_eq_false hb] at h
    cases h
    exact ⟨rfl, by simp [hb]⟩

/-- A part that is left out where a token of a given kind stands. -/
theorem optional_bind {absent a : α} {present : Reader α} {f : α → Reader β}
    (h : Begins kind c.ahead ∧ a = absent ∧ c = d ∨ ¬Begins kind c.ahead ∧ present c = .ok a d) :
    (sees kind >>= fun b => if b = true then pure absent >>= f else present >>= f) c = f a d := by
  rcases h with ⟨hkind, rfl, rfl⟩ | ⟨hkind, hpresent⟩
  · rw [bind_of_ok (sees_eq_true hkind), if_pos rfl]
    exact bind_of_ok rfl
  · rw [bind_of_ok (sees_eq_false hkind), if_neg Bool.false_ne_true]
    exact bind_of_ok hpresent

end LoxLang.Grammar
