import SchemaClasses.Proofs.Printing.Units
import SchemaClasses.Proofs.Parsing

/-!
# Reading what is printed

The units of a definition are read as the definition that they are those of, but for the places in
it. Reading is put together from small parsers, and so is what they read: `Parser.Decides` follows
the binds of a parser along the units.
-/

namespace SchemaClasses

namespace Parser

variable {α β : Type} {P Q : α → Prop} {R : β → Prop} {F G : TokenKind → Prop}
  {units others : List TokenKind} {good better : Prop}

/-- The tokens can be gone through to their end. -/
def Readable (tokens : List Token) : Prop :=
  ∀ token ∈ tokens, ∀ fault, token.kind ≠ .fault fault

/-- What the parser makes of tokens of these kinds, before one that is as `F` says: if they are
    `good`, it reads something that is as `Q` says and just these tokens, and else nothing. -/
def Decides (p : Parser α) (units : List TokenKind) (F : TokenKind → Prop) (good : Prop)
    (Q : α → Prop) : Prop :=
  ∀ front next rest, front.map (·.kind) = units → Readable (front ++ next :: rest) →
    F next.kind →
    (good → ∃ a, p (front ++ next :: rest) = .ok (a, next :: rest) ∧ Q a) ∧
      (¬ good → ∃ e, p (front ++ next :: rest) = .error e)

/-- The parser reads such tokens in any case. -/
abbrev Reads (p : Parser α) (units : List TokenKind) (F : TokenKind → Prop) (Q : α → Prop) : Prop :=
  Decides p units F True Q

def Any (_ : TokenKind) : Prop :=
  True

/-! ## Composition -/

theorem decides_of_good {p : Parser α} (hgood : good)
    (h : ∀ front next rest, front.map (·.kind) = units → Readable (front ++ next :: rest) →
      F next.kind → ∃ a, p (front ++ next :: rest) = .ok (a, next :: rest) ∧ Q a) :
    Decides p units F good Q :=
  fun front next rest hfront hreadable hnext =>
    ⟨fun _ => h front next rest hfront hreadable hnext, fun hbad => absurd hgood hbad⟩

/-- An equivalent condition serves as well. -/
theorem Decides.iff {p : Parser α} {other : Prop} (hp : Decides p units F good Q)
    (h : other ↔ good) : Decides p units F other Q := by
  rwa [propext h]

/-- Less can follow, and less be said of what is read. -/
theorem Decides.mono {p : Parser α} (hp : Decides p units F good P) (hF : ∀ kind, G kind → F kind)
    (hQ : ∀ a, P a → Q a) : Decides p units G good Q := by
  intro front next rest hfront hreadable hnext
  obtain ⟨hreads, hfails⟩ := hp front next rest hfront hreadable (hF _ hnext)
  refine ⟨fun hgood => ?_, hfails⟩
  obtain ⟨a, hrun, ha⟩ := hreads hgood
  exact ⟨a, hrun, hQ a ha⟩

theorem Decides.before {p : Parser α} (hp : Decides p units F good P)
    (hF : ∀ kind, G kind → F kind) : Decides p units G good P :=
  hp.mono hF fun _ h => h

theorem Decides.pure {a : α} (h : Q a) : Reads (Pure.pure a) [] F Q := by
  refine decides_of_good trivial fun front next rest hfront _ _ => ?_
  rw [List.map_eq_nil_iff.mp hfront]
  exact ⟨a, rfl, h⟩

/-- The token after some tokens of these kinds. -/
theorem exists_next {front : List Token} (hfront : front.map (·.kind) = units) (next : Token)
    (rest : List Token) :
    ∃ first more, front ++ next :: rest = first :: more ∧ first.kind = units.headD next.kind := by
  subst hfront
  cases front with
  | nil => exact ⟨next, rest, rfl, rfl⟩
  | cons first more => exact ⟨first, _, rfl, rfl⟩

/-- What follows the first tokens are the others and what follows those. -/
theorem exists_split {front : List Token} {next : Token} {rest : List Token}
    (hfront : front.map (·.kind) = units ++ others) (hreadable : Readable (front ++ next :: rest)) :
    ∃ first second token more, first.map (·.kind) = units ∧ second.map (·.kind) = others ∧
      front ++ next :: rest = first ++ token :: more ∧ second ++ next :: rest = token :: more ∧
      token.kind = others.headD next.kind ∧ Readable (token :: more) := by
  obtain ⟨first, second, rfl, hfirst, hsecond⟩ := List.map_eq_append_iff.mp hfront
  obtain ⟨token, more, heq, hkind⟩ := exists_next hsecond next rest
  rw [List.append_assoc, heq] at hreadable
  refine ⟨first, second, token, more, hfirst, hsecond, ?_, heq, hkind, fun t ht => ?_⟩
  · rw [List.append_assoc, heq]
  · exact hreadable t (List.mem_append_right _ ht)

/-- Two parsers in a row read what both of them read. -/
theorem Decides.both {p : Parser α} {f : α → Parser β} (hp : Decides p units F good P)
    (hfollow : ∀ kind, G kind → F (others.headD kind))
    (hf : ∀ a, P a → Decides (f a) others G better R) :
    Decides (p >>= f) (units ++ others) G (good ∧ better) R := by
  intro front next rest hfront hreadable hnext
  obtain ⟨first, second, token, more, hfirst, hsecond, hall, hmore, hkind, htail⟩ :=
    exists_split hfront hreadable
  rw [hall] at hreadable ⊢
  obtain ⟨hreads, hfails⟩ := hp first token more hfirst hreadable (hkind ▸ hfollow _ hnext)
  by_cases hgood : good
  · obtain ⟨a, hrun, ha⟩ := hreads hgood
    have hsecond := hf a ha second next rest hsecond (hmore ▸ htail) hnext
    rw [hmore] at hsecond
    simpa [Bind.bind, StateT.bind, Except.bind, hrun, hgood] using hsecond
  · obtain ⟨e, herror⟩ := hfails hgood
    simp [Bind.bind, StateT.bind, Except.bind, herror, hgood]

/-- A parser that always reads leaves it to the next one whether there is something good. -/
theorem Reads.bind {p : Parser α} {f : α → Parser β} (hp : Reads p units F P)
    (hfollow : ∀ kind, G kind → F (others.headD kind))
    (hf : ∀ a, P a → Decides (f a) others G good R) :
    Decides (p >>= f) (units ++ others) G good R :=
  (hp.both hfollow hf).iff (by simp)

/-- What comes after a parser that may fail is read in any case. -/
theorem Decides.bind {p : Parser α} {f : α → Parser β} (hp : Decides p units F good P)
    (hfollow : ∀ kind, G kind → F (others.headD kind))
    (hf : ∀ a, P a → Reads (f a) others G R) : Decides (p >>= f) (units ++ others) G good R :=
  (hp.both hfollow hf).iff (by simp)

/-- A parser that reads no tokens. -/
theorem Reads.look {p : Parser α} {f : α → Parser β} (hp : Reads p [] F P)
    (hfollow : ∀ kind, G kind → F (units.headD kind))
    (hf : ∀ a, P a → Decides (f a) units G good R) : Decides (p >>= f) units G good R :=
  hp.bind hfollow hf

/-- A parser that reads one token, whatever follows. -/
theorem Reads.one {p : Parser α} {f : α → Parser β} {kind : TokenKind} (hp : Reads p [kind] Any P)
    (hf : ∀ a, P a → Decides (f a) units G good R) :
    Decides (p >>= f) (kind :: units) G good R :=
  hp.bind (fun _ _ => trivial) hf

/-- The last parser, whose result is part of that of the whole. -/
theorem Decides.last {p : Parser α} {f : α → β} (hp : Decides p units F good P)
    (hf : ∀ a, P a → R (f a)) : Decides (p >>= fun a => Pure.pure (f a)) units F good R := by
  rw [← List.append_nil units]
  exact hp.bind (fun _ h => h) fun a ha => .pure (hf a ha)

theorem Decides.map {p : Parser α} {f : α → β} (hp : Decides p units F good P)
    (hf : ∀ a, P a → R (f a)) : Decides (f <$> p) units F good R := by
  rw [map_eq_pure_bind]
  exact hp.last hf

/-! ## Tokens at the front -/

/-- Where no token is a fault, the first is none. -/
theorem readable_eq {first : Token} {rest : List Token} (h : Readable (first :: rest)) :
    readable (first :: rest) = .ok (first :: rest) := by
  unfold readable
  split
  next fault offset more heq =>
    obtain ⟨rfl, -⟩ := List.cons.inj heq
    exact absurd rfl (h _ List.mem_cons_self fault)
  next => rfl

/-- Looking at a token reads none. -/
theorem reads_current : Reads current [] F fun token => F token.kind := by
  refine decides_of_good trivial fun front next rest hfront _ hnext => ?_
  rw [List.map_eq_nil_iff.mp hfront]
  exact ⟨next, rfl, hnext⟩

/-- Any token can be passed, as the next one is readable. -/
theorem reads_advance (kind : TokenKind) : Reads advance [kind] Any fun _ => True := by
  refine decides_of_good trivial fun front next rest hfront hreadable _ => ?_
  obtain ⟨token, rfl, -⟩ := List.map_eq_singleton_iff.mp hfront
  have hnext : readable (next :: rest) = .ok (next :: rest) :=
    readable_eq fun t ht => hreadable t (List.mem_append_right _ ht)
  refine ⟨(), ?_, trivial⟩
  rw [List.singleton_append]
  unfold advance
  simp [Bind.bind, StateT.bind, Except.bind, MonadState.get, getThe, MonadStateOf.get, StateT.get,
    liftM, monadLift, MonadLift.monadLift, StateT.lift, hnext, Pure.pure, Except.pure]
  rfl

/-- A parser that looks at the first token before anything else. -/
theorem Decides.current {f : Token → Parser β} {kind : TokenKind}
    (hf : ∀ token, token.kind = kind → Decides (f token) (kind :: units) G good R) :
    Decides (Parser.current >>= f) (kind :: units) G good R :=
  (reads_current (F := (· = kind))).look (fun _ _ => rfl) hf

theorem reads_name (text : String) : Reads name [.name text] Any (· = text) := by
  refine .current fun token htoken => ?_
  simp only [htoken]
  exact (reads_advance _).one fun _ _ => .pure rfl

theorem reads_expect (p : Punctuator) : Reads (expect p) [.punctuator p] Any fun _ => True := by
  refine .current fun token htoken => ?_
  rw [if_pos htoken]
  exact reads_advance _

theorem reads_expectKeyword (word : String) :
    Reads (expectKeyword word) [.name word] Any fun _ => True := by
  refine .current fun token htoken => ?_
  rw [if_pos htoken]
  exact reads_advance _

theorem reads_peek (p : Punctuator) : Reads (peek p) [] (· = .punctuator p) (· = true) :=
  (reads_current (F := (· = .punctuator p))).look (fun _ h => h) fun _ htoken =>
    .pure (decide_eq_true htoken)

theorem reads_peek_not (p : Punctuator) : Reads (peek p) [] (· ≠ .punctuator p) (· = false) :=
  (reads_current (F := (· ≠ .punctuator p))).look (fun _ h => h) fun _ htoken =>
    .pure (decide_eq_false htoken)

/-- A punctuator that is there is passed. -/
theorem reads_accept (p : Punctuator) : Reads (accept p) [.punctuator p] Any (· = true) := by
  refine (reads_peek p).look (fun _ _ => rfl) fun _ hpeek => ?_
  rw [if_pos hpeek]
  exact (reads_advance _).one fun _ _ => .pure rfl

/-- A punctuator that is not there leaves all as it is. -/
theorem reads_accept_not (p : Punctuator) :
    Reads (accept p) [] (· ≠ .punctuator p) (· = false) := by
  refine (reads_peek_not p).look (fun _ h => h) fun _ hpeek => ?_
  rw [if_neg (by simp [hpeek])]
  exact .pure rfl

theorem reads_acceptKeyword (word : String) :
    Reads (acceptKeyword word) [.name word] Any (· = true) := by
  refine .current fun token htoken => ?_
  rw [if_pos htoken]
  exact (reads_advance _).one fun _ _ => .pure rfl

theorem reads_acceptKeyword_not (word : String) :
    Reads (acceptKeyword word) [] (· ≠ .name word) (· = false) := by
  refine (reads_current (F := (· ≠ .name word))).look (fun _ h => h) fun token htoken => ?_
  rw [if_neg htoken]
  exact .pure rfl

/-- A parser that looks at the second token before anything else. -/
theorem Decides.lookahead {f : Token → Parser β} {first second : TokenKind}
    (hf : ∀ token, token.kind = second → Decides (f token) (first :: second :: units) G good R) :
    Decides (Parser.lookahead >>= f) (first :: second :: units) G good R := by
  intro front next rest hfront hreadable hnext
  obtain ⟨token, tail, rfl, -, htail⟩ := List.map_eq_cons_iff.mp hfront
  obtain ⟨ahead, more, rfl, hahead, -⟩ := List.map_eq_cons_iff.mp htail
  have hmore : readable (ahead :: (more ++ next :: rest)) = .ok (ahead :: (more ++ next :: rest)) :=
    readable_eq fun t ht => hreadable t (List.mem_cons_of_mem _ ht)
  have hlook : (Parser.lookahead >>= f) (token :: ahead :: more ++ next :: rest) =
      f ahead (token :: ahead :: more ++ next :: rest) := by
    rw [List.cons_append, List.cons_append]
    unfold Parser.lookahead
    simp [Bind.bind, StateT.bind, Except.bind, MonadState.get, getThe, MonadStateOf.get, StateT.get,
      liftM, monadLift, MonadLift.monadLift, StateT.lift, hmore, Pure.pure, Except.pure,
      StateT.pure]
  rw [hlook]
  exact hf ahead hahead _ next rest hfront hreadable hnext

/-- The number of tokens is at least that of the units. -/
theorem Decides.get {Q : List Token → Prop} {f : List Token → Parser β}
    (h : ∀ tokens, units.length ≤ tokens.length → Q tokens)
    (hf : ∀ tokens, Q tokens → Decides (f tokens) units F good R) :
    Decides (MonadState.get >>= f) units F good R := by
  intro front next rest hfront hreadable hnext
  have hlength : units.length ≤ (front ++ next :: rest).length := by
    rw [← hfront, List.length_map, List.length_append]
    omega
  exact hf _ (h _ hlength) front next rest hfront hreadable hnext

/-- A parser that always fails is right about what is never good. -/
theorem failAt_decides {token : Token} {fault : SyntaxFault} (hbad : ¬ good) :
    Decides (failAt token fault) units F good Q :=
  fun _ _ _ _ _ _ => ⟨fun hgood => absurd hgood hbad, fun _ => ⟨_, rfl⟩⟩

/-! ## Repetition -/

/-- Parts that are read one by one, up to what `erase` takes away, where each of them starts with
    something that can follow another and does not close them. -/
structure Items {γ : Type} (item : Parser α) (close : Punctuator) (F : TokenKind → Prop)
    (good : α → Prop) (erase : α → γ) (unitsOf : α → List TokenKind) (parts : List α) : Prop where
  decides : ∀ a ∈ parts, Decides item (unitsOf a) F (good a) (erase · = erase a)
  start : ∀ a ∈ parts, ∃ kind more, unitsOf a = kind :: more ∧ F kind ∧
    kind ≠ TokenKind.punctuator close
  close : F (.punctuator close)

section Repetition

variable {γ : Type} {item : Parser α} {opening close : Punctuator} {erase : α → γ}
  {unitsOf : α → List TokenKind} {good : α → Prop} {parts : List α}

/-- After a part comes what can follow one: another part, or the end. -/
theorem Items.follow (h : Items item close F good erase unitsOf parts) (kind : TokenKind) :
    F (((parts.map unitsOf).flatten ++ [TokenKind.punctuator close]).headD kind) := by
  cases parts with
  | nil => exact h.close
  | cons b rest =>
    obtain ⟨first, more, heq, hfirst, -⟩ := h.start b List.mem_cons_self
    rw [List.map_cons, List.flatten_cons, heq]
    exact hfirst

theorem Items.tail {a : α} {rest : List α} (h : Items item close F good erase unitsOf (a :: rest)) :
    Items item close F good erase unitsOf rest :=
  ⟨fun c hc => h.decides c (List.mem_cons_of_mem _ hc),
    fun c hc => h.start c (List.mem_cons_of_mem _ hc), h.close⟩

/-- All parts are read up to the end exactly if each of them is. The first one that is not stops
    everything. -/
theorem itemsUntil_decides (h : Items item close F good erase unitsOf parts) {fuel : Nat}
    (hfuel : parts.length < fuel) :
    Decides (itemsUntil close item fuel) ((parts.map unitsOf).flatten ++ [.punctuator close]) Any
      (∀ a ∈ parts, good a) (·.map erase = parts.map erase) := by
  induction parts generalizing fuel with
  | nil =>
    obtain ⟨fuel, rfl⟩ := Nat.exists_eq_succ_of_ne_zero (Nat.ne_zero_of_lt hfuel)
    refine (reads_accept close).one fun _ hclosed => ?_
    rw [if_pos hclosed]
    exact Decides.iff (.pure rfl) (by simp)
  | cons a rest ih =>
    obtain ⟨fuel, rfl⟩ := Nat.exists_eq_succ_of_ne_zero (Nat.ne_zero_of_lt hfuel)
    -- An item does not start with the closing mark, so that is not taken for it.
    obtain ⟨first, more, heq, -, hopen⟩ := h.start a List.mem_cons_self
    rw [List.map_cons, List.flatten_cons, List.append_assoc]
    refine (reads_accept_not close).look (fun kind _ => ?_) fun _ hnot => ?_
    · rw [heq]
      exact hopen
    rw [if_neg (by simp [hnot])]
    refine Decides.iff ?_ List.forall_mem_cons
    refine (h.decides a List.mem_cons_self).both (fun kind _ => h.tail.follow kind) fun b hb => ?_
    exact (ih h.tail (Nat.lt_of_succ_lt_succ hfuel)).last fun bs hbs => by
      rw [List.map_cons, List.map_cons, hb, hbs]

/-- There are units for each of the parts, so there is fuel for all of them. -/
theorem Items.lt_fuel (h : Items item close F good erase unitsOf parts) (tokens : List Token)
    (hle : ((parts.map unitsOf).flatten ++ [TokenKind.punctuator close]).length ≤ tokens.length) :
    parts.length < tokens.length + 1 := by
  have hunits : parts.length ≤ (parts.map unitsOf).flatten.length := by
    clear hle
    induction parts with
    | nil => exact Nat.le_refl _
    | cons a rest ih =>
      obtain ⟨first, more, heq, -⟩ := h.start a List.mem_cons_self
      have := ih h.tail
      rw [List.map_cons, List.flatten_cons, heq, List.length_append, List.length_cons,
        List.length_cons]
      omega
  rw [List.length_append] at hle
  omega

theorem anyBetween_decides (h : Items item close F good erase unitsOf parts) :
    Decides (anyBetween opening close item)
      (.punctuator opening :: ((parts.map unitsOf).flatten ++ [.punctuator close])) Any
      (∀ a ∈ parts, good a) (·.map erase = parts.map erase) :=
  (reads_expect opening).one fun _ _ => Decides.get h.lt_fuel fun _ => itemsUntil_decides h

theorem manyBetween_decides (h : Items item close F good erase unitsOf parts) (hsome : parts ≠ []) :
    Decides (manyBetween opening close item) (enclosed opening close (parts.map unitsOf)) Any
      (∀ a ∈ parts, good a) (·.map erase = parts.map erase) := by
  obtain ⟨a, rest, rfl⟩ := List.exists_cons_of_ne_nil hsome
  rw [enclosed, if_neg (by simp), List.map_cons, List.flatten_cons, List.append_assoc]
  refine (reads_expect opening).one fun _ _ => ?_
  refine Decides.iff ?_ List.forall_mem_cons
  refine (h.decides a List.mem_cons_self).both (fun kind _ => h.tail.follow kind) fun b hb => ?_
  refine Decides.get h.tail.lt_fuel fun _ hfuel => ?_
  exact (itemsUntil_decides h.tail hfuel).last fun bs hbs => by
    rw [List.map_cons, List.map_cons, hb, hbs]

/-- Where there are no parts, there are no punctuators for them either. -/
theorem optionalBetween_decides (h : Items item close F good erase unitsOf parts) :
    Decides (optionalBetween opening close item) (enclosed opening close (parts.map unitsOf))
      (· ≠ .punctuator opening) (∀ a ∈ parts, good a) (·.map erase = parts.map erase) := by
  by_cases hsome : parts = []
  · subst hsome
    refine (reads_peek_not opening).look (fun _ hkind => hkind) fun _ hnot => ?_
    rw [if_neg (by simp [hnot])]
    exact Decides.iff (.pure rfl) (by simp)
  · have hmany : Decides (manyBetween opening close item) _ Any _ _ :=
      manyBetween_decides h hsome
    rw [enclosed, if_neg (by simpa using hsome)] at hmany ⊢
    refine (reads_peek opening).look (fun _ _ => rfl) fun _ hpeek => ?_
    rw [if_pos hpeek]
    exact hmany.before fun _ _ => trivial

end Repetition

/-! ## Separated names -/

theorem separated_cons_cons (p : Punctuator) (first second : String) (rest : List String) :
    separated p (first :: second :: rest) =
      .name first :: .punctuator p :: separated p (second :: rest) := by
  simp [separated, List.intercalate]

theorem separated_singleton (p : Punctuator) (name : String) :
    separated p [name] = [.name name] := by
  simp [separated, List.intercalate]

theorem length_le_separated (p : Punctuator) (names : List String) :
    names.length ≤ (separated p names).length := by
  match names with
  | [] => exact Nat.zero_le _
  | [name] => simp [separated_singleton]
  | first :: second :: rest =>
    have := length_le_separated p (second :: rest)
    rw [separated_cons_cons]
    simp only [List.length_cons] at this ⊢
    omega

section Separated

variable {item : Parser String} {separator : Punctuator} {names : List String}
  (h : ∀ name ∈ names, Reads item [.name name] Any (· = name)) (hsome : names ≠ [])

include h hsome in
/-- Names are read up to something that separates no further one. -/
theorem itemsSeparated_reads {fuel : Nat} (hfuel : names.length ≤ fuel) :
    Reads (itemsSeparated separator item fuel) (separated separator names)
      (· ≠ .punctuator separator) (· = names) := by
  induction names generalizing fuel with
  | nil => exact absurd rfl hsome
  | cons first rest ih =>
    obtain ⟨fuel, rfl⟩ := Nat.exists_eq_succ_of_ne_zero (Nat.ne_zero_of_lt hfuel)
    have hfirst := h first List.mem_cons_self
    -- After the last name no separator follows, and the loop ends.
    cases rest with
    | nil =>
      rw [separated_singleton]
      refine hfirst.one fun a ha => ?_
      refine (reads_accept_not separator).look (fun _ hkind => hkind) fun _ hnot => ?_
      rw [if_neg (by simp [hnot])]
      exact .pure (by rw [ha])
    | cons second more =>
      rw [separated_cons_cons]
      refine hfirst.one fun a ha => (reads_accept separator).one fun _ haccept => ?_
      rw [if_pos haccept]
      have hrest := ih (fun name hmem => h name (List.mem_cons_of_mem _ hmem)) (by simp)
        (Nat.le_of_succ_le_succ hfuel)
      exact hrest.last fun names hnames => by rw [ha, hnames]

include h hsome in
theorem manySeparated_reads : Reads (manySeparated separator item) (separated separator names)
    (· ≠ .punctuator separator) (· = names) := by
  have hstart (kind : TokenKind) :
      (separated separator names).headD kind ≠ .punctuator separator := by
    match names with
    | [] => exact absurd rfl hsome
    | [name] => simp [separated_singleton]
    | first :: second :: rest => simp [separated_cons_cons]
  refine (reads_accept_not separator).look (fun kind _ => hstart kind) fun _ _ => ?_
  refine Decides.get (Q := fun tokens => names.length ≤ tokens.length + 1) (fun tokens hle => ?_)
    fun tokens hfuel => itemsSeparated_reads h hsome hfuel
  have := length_le_separated separator names
  omega

end Separated

end Parser

end SchemaClasses
