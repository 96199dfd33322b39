import SchemaClasses.Document.Parser
import SchemaClasses.Proofs.Literals.Values
import SchemaClasses.Proofs.Spelling
import SchemaClasses.Proofs.Tokens

/-!
# What is read

What reading promises on the documents and literals that it gives. Reading is put together from
small parsers, so the promises are too: `Parser.Ensures` follows the binds of a parser.
-/

namespace SchemaClasses

namespace Parser

variable {α β : Type} {P Q : α → Prop}

/-- What the parser reads from well-formed tokens is as `Q` says, and only well-formed ones are
    left. -/
def Ensures (p : Parser α) (Q : α → Prop) : Prop :=
  ∀ tokens, (∀ token ∈ tokens, token.kind.WellFormed) → ∀ a rest, p tokens = .ok (a, rest) →
    Q a ∧ ∀ token ∈ rest, token.kind.WellFormed

/-! ## Composition -/

theorem Ensures.pure {a : α} (h : Q a) : Ensures (Pure.pure a) Q := by
  intro tokens htokens b rest hrun
  cases hrun
  exact ⟨h, htokens⟩

/-- What two parsers in a row read is ensured by both. -/
theorem Ensures.bind {p : Parser α} {f : α → Parser β} {R : β → Prop}
    (hp : Ensures p P) (hf : ∀ a, P a → Ensures (f a) R) : Ensures (p >>= f) R := by
  intro tokens htokens b rest hrun
  cases hfirst : p tokens with
  | error e => simp [Bind.bind, StateT.bind, Except.bind, hfirst] at hrun
  | ok result =>
    obtain ⟨a, next⟩ := result
    obtain ⟨ha, hnext⟩ := hp tokens htokens a next hfirst
    have hsecond : f a next = .ok (b, rest) := by
      simpa [Bind.bind, StateT.bind, Except.bind, hfirst] using hrun
    exact hf a ha next hnext b rest hsecond

theorem Ensures.map {p : Parser α} {f : α → β} {R : β → Prop} (hp : Ensures p P)
    (hf : ∀ a, P a → R (f a)) : Ensures (f <$> p) R := by
  rw [map_eq_pure_bind]
  exact hp.bind fun a ha => .pure (hf a ha)

theorem Ensures.mono {p : Parser α} (hp : Ensures p P) (h : ∀ a, P a → Q a) : Ensures p Q := by
  intro tokens htokens a rest hrun
  obtain ⟨ha, hrest⟩ := hp tokens htokens a rest hrun
  exact ⟨h a ha, hrest⟩

/-- A parser that promises something at all leaves well-formed tokens. -/
theorem Ensures.trivial {p : Parser α} (hp : Ensures p P) : Ensures p fun _ => True :=
  hp.mono fun _ _ => True.intro

theorem Ensures.ite {c : Prop} [Decidable c] {p q : Parser α} (hp : Ensures p Q)
    (hq : Ensures q Q) : Ensures (if c then p else q) Q := by
  split
  · exact hp
  · exact hq

/-- Both branches of a conditional go on in the same way. -/
theorem Ensures.branch {c : Prop} [Decidable c] {p q : Parser α} {f : α → Parser β} {R : β → Prop}
    (hp : Ensures p P) (hq : Ensures q P) (hf : ∀ a, P a → Ensures (f a) R) :
    Ensures (if c then p >>= f else q >>= f) R :=
  (hp.bind hf).ite (hq.bind hf)

/-- A branch that always fails promises anything. -/
theorem Ensures.guard {c : Prop} [Decidable c] {p : Parser Unit} {f : Unit → Parser α}
    (hp : Ensures p fun _ => False) (hf : Ensures (f ()) Q) :
    Ensures (if c then p >>= f else f ()) Q :=
  (hp.bind fun _ => False.elim).ite hf

/-! ## Tokens at the front -/

theorem failAt_ensures {token : Token} {fault : SyntaxFault} : Ensures (failAt token fault) Q := by
  intro tokens htokens b rest hrun
  cases hrun

theorem get_ensures : Ensures get fun tokens => ∀ token ∈ tokens, token.kind.WellFormed := by
  intro tokens htokens a rest hrun
  cases hrun
  exact ⟨htokens, htokens⟩

theorem set_ensures {tokens : List Token} (h : ∀ token ∈ tokens, token.kind.WellFormed) :
    Ensures (set tokens) fun _ => True := by
  intro _ _ a rest hrun
  cases hrun
  exact ⟨True.intro, h⟩

theorem current_ensures : Ensures current (·.kind.WellFormed) := by
  refine get_ensures.bind fun tokens htokens => .pure ?_
  cases tokens with
  | nil => trivial
  | cons first more => exact htokens first List.mem_cons_self

theorem readable_eq_ok {tokens rest : List Token} (h : readable tokens = .ok rest) :
    rest = tokens := by
  unfold readable at h
  split at h
  · cases h
  · simpa using h.symm

theorem readable_ensures (tokens : List Token) :
    Ensures (liftM (readable tokens)) (· = tokens) := by
  intro front hfront a rest hrun
  cases hreadable : readable tokens with
  | error e => simp [liftM, monadLift, MonadLift.monadLift, StateT.lift, hreadable, Bind.bind,
      Except.bind] at hrun
  | ok result =>
    obtain rfl := readable_eq_ok hreadable
    simp only [liftM, monadLift, MonadLift.monadLift, StateT.lift, hreadable, Bind.bind,
      Except.bind, Pure.pure, Except.pure, Except.ok.injEq, Prod.mk.injEq] at hrun
    obtain ⟨rfl, rfl⟩ := hrun
    exact ⟨rfl, hfront⟩

theorem advance_ensures : Ensures advance fun _ => True := by
  refine get_ensures.bind fun tokens htokens => ?_
  split
  · refine (readable_ensures _).bind fun rest heq => set_ensures ?_
    subst heq
    exact fun token hmem => htokens token (List.mem_cons_of_mem _ hmem)
  · exact .pure True.intro

theorem lookahead_ensures : Ensures lookahead (·.kind.WellFormed) := by
  refine get_ensures.bind fun tokens htokens => ?_
  split
  · next _ second rest =>
    refine (readable_ensures _).bind fun front heq => .pure ?_
    subst heq
    exact htokens second (by simp)
  · exact current_ensures

theorem unexpected_ensures : Ensures unexpected Q :=
  current_ensures.bind fun _ _ => failAt_ensures

theorem peek_ensures (p : Punctuator) : Ensures (peek p) fun _ => True :=
  current_ensures.bind fun _ _ => .pure True.intro

theorem peekName_ensures : Ensures peekName fun _ => True := by
  refine current_ensures.bind fun token _ => ?_
  split <;> exact .pure True.intro

theorem accept_ensures (p : Punctuator) : Ensures (accept p) fun _ => True := by
  refine (peek_ensures p).bind fun _ _ => ?_
  exact (advance_ensures.bind fun _ _ => .pure True.intro).ite (.pure True.intro)

theorem expect_ensures (p : Punctuator) : Ensures (expect p) fun _ => True :=
  current_ensures.bind fun _ _ => advance_ensures.ite failAt_ensures

theorem acceptKeyword_ensures (word : String) : Ensures (acceptKeyword word) fun _ => True := by
  refine current_ensures.bind fun _ _ => ?_
  exact (advance_ensures.bind fun _ _ => .pure True.intro).ite (.pure True.intro)

theorem expectKeyword_ensures (word : String) : Ensures (expectKeyword word) fun _ => True :=
  current_ensures.bind fun _ _ => advance_ensures.ite failAt_ensures

theorem expectEnd_ensures : Ensures expectEnd fun _ => True :=
  current_ensures.bind fun _ _ => Ensures.ite (.pure True.intro) failAt_ensures

/-- A name that is read is an identifier. -/
theorem name_ensures : Ensures name fun text => Text.isIdentifier text := by
  refine current_ensures.bind fun token htoken => ?_
  split
  · next text heq =>
    rw [heq] at htoken
    exact advance_ensures.bind fun _ _ => .pure htoken
  · exact failAt_ensures

/-- The name that is read is that of the token at the front. -/
theorem kind_of_name {tokens rest : List Token} {token : Token} {key : String}
    (hlook : current tokens = .ok (token, tokens)) (h : name tokens = .ok (key, rest)) :
    token.kind = .name key := by
  unfold name at h
  simp only [Bind.bind, StateT.bind, Except.bind, hlook] at h
  cases hkind : token.kind
  case name text =>
    cases hnext : advance tokens <;>
      simp only [hkind, Bind.bind, StateT.bind, Except.bind, hnext] at h
    · cases h
    · cases h
      rfl
  all_goals
    simp only [hkind] at h
    cases h

/-- A name that is read after a check of its token has passed the check. -/
theorem checkedName_ensures {bad : Token → Prop} [DecidablePred bad] {fault : Token → SyntaxFault}
    {f : String → Parser β} {R : β → Prop}
    (hf : ∀ token key, token.kind = .name key → Text.isIdentifier key → ¬ bad token →
      Ensures (f key) R) :
    Ensures (do
      let token ← current
      if bad token then failAt token (fault token)
      let key ← name
      f key) R := by
  intro tokens htokens b rest hrun
  -- Both looks see the same token.
  obtain ⟨token, hlook⟩ : ∃ token, current tokens = .ok (token, tokens) := ⟨_, rfl⟩
  simp only [Bind.bind, StateT.bind, Except.bind, hlook] at hrun
  split at hrun
  next => cases hrun
  next hgood =>
    cases hname : name tokens with
    | error e => simp [Bind.bind, StateT.bind, Except.bind, hname] at hrun
    | ok result =>
      obtain ⟨key, more⟩ := result
      obtain ⟨hkey, hmore⟩ := name_ensures tokens htokens key more hname
      simp only [Bind.bind, StateT.bind, Except.bind, hname] at hrun
      exact hf token key (kind_of_name hlook hname) hkey hgood more hmore b rest hrun

theorem someName_ensures : Ensures (some <$> name) fun _ => True :=
  name_ensures.map fun _ _ => True.intro

/-! ## Repetition -/

/-- All items are as one of them is. -/
theorem itemsUntil_ensures {close : Punctuator} {item : Parser α} (h : Ensures item Q)
    (fuel : Nat) : Ensures (itemsUntil close item fuel) fun items => ∀ a ∈ items, Q a := by
  induction fuel with
  | zero => exact unexpected_ensures
  | succ fuel ih =>
    refine (accept_ensures close).bind fun _ _ => .ite (.pure (by simp)) ?_
    refine h.bind fun first hfirst => ih.bind fun items hitems => .pure ?_
    exact List.forall_mem_cons.mpr ⟨hfirst, hitems⟩

theorem anyBetween_ensures {opening close : Punctuator} {item : Parser α} (h : Ensures item Q) :
    Ensures (anyBetween opening close item) fun items => ∀ a ∈ items, Q a :=
  (expect_ensures opening).bind fun _ _ => get_ensures.bind fun _ _ => itemsUntil_ensures h _

/-- There is at least one item, and each is as one of them is. -/
theorem manyBetween_ensures {opening close : Punctuator} {item : Parser α} (h : Ensures item Q) :
    Ensures (manyBetween opening close item) fun items => items ≠ [] ∧ ∀ a ∈ items, Q a := by
  refine (expect_ensures opening).bind fun _ _ => h.bind fun first hfirst => ?_
  refine get_ensures.bind fun _ _ => (itemsUntil_ensures h _).bind fun items hitems => .pure ?_
  exact ⟨List.cons_ne_nil _ _, List.forall_mem_cons.mpr ⟨hfirst, hitems⟩⟩

theorem optionalBetween_ensures {opening close : Punctuator} {item : Parser α}
    (h : Ensures item Q) :
    Ensures (optionalBetween opening close item) fun items => ∀ a ∈ items, Q a :=
  (peek_ensures opening).bind fun _ _ =>
    ((manyBetween_ensures h).mono fun _ hitems => hitems.2).ite (.pure (by simp))

theorem itemsSeparated_ensures {separator : Punctuator} {item : Parser α} (h : Ensures item Q)
    (fuel : Nat) :
    Ensures (itemsSeparated separator item fuel) fun items => items ≠ [] ∧ ∀ a ∈ items, Q a := by
  induction fuel with
  | zero => exact unexpected_ensures
  | succ fuel ih =>
    refine h.bind fun first hfirst => (accept_ensures separator).bind fun _ _ => .ite ?_ ?_
    · refine ih.bind fun items hitems => .pure ⟨List.cons_ne_nil _ _, ?_⟩
      exact List.forall_mem_cons.mpr ⟨hfirst, hitems.2⟩
    · exact .pure ⟨List.cons_ne_nil _ _, List.forall_mem_singleton.mpr hfirst⟩

theorem manySeparated_ensures {separator : Punctuator} {item : Parser α} (h : Ensures item Q) :
    Ensures (manySeparated separator item) fun items => items ≠ [] ∧ ∀ a ∈ items, Q a :=
  (accept_ensures separator).bind fun _ _ => get_ensures.bind fun _ _ =>
    itemsSeparated_ensures h _

/-! ## Literals -/

/-- The numbers in a literal that is read have all of their parts, and a constant holds no
    variables. -/
structure IsReadValue (constant : Bool) (v : Value) : Prop where
  lexical : v.IsLexical
  closed : constant = true → ¬ v.HasVariable

variable {constant : Bool}

theorem IsReadValue.list {items : List Value} (h : ∀ item ∈ items, IsReadValue constant item) :
    IsReadValue constant (.list items) := by
  refine ⟨Value.isLexical_list.mpr fun item hmem => (h item hmem).lexical, fun hconstant => ?_⟩
  rw [Value.hasVariable_list]
  rintro ⟨item, hmem, hvariable⟩
  exact (h item hmem).closed hconstant hvariable

theorem IsReadValue.object {fields : List (String × Value)}
    (h : ∀ field ∈ fields, IsReadValue constant field.2) :
    IsReadValue constant (.object fields) := by
  refine ⟨Value.isLexical_object.mpr fun field hmem => (h field hmem).lexical, fun hconstant => ?_⟩
  rw [Value.hasVariable_object]
  rintro ⟨field, hmem, hvariable⟩
  exact (h field hmem).closed hconstant hvariable

theorem isReadValue_namedValue (text : String) : IsReadValue constant (namedValue text) := by
  unfold namedValue
  split <;>
    · refine ⟨fun n hn => ?_, fun _ ⟨name, hname⟩ => ?_⟩
      · cases hn
      · cases hname

theorem variableValue_ensures (constant : Bool) :
    Ensures (variableValue constant) (IsReadValue constant) := by
  refine current_ensures.bind fun dollar _ => (expect_ensures .dollar).bind fun _ _ => ?_
  cases constant with
  | true =>
    refine current_ensures.bind fun token _ => ?_
    split <;> exact failAt_ensures
  | false =>
    refine name_ensures.bind fun text _ => .pure ⟨fun n hn => ?_, fun hconstant => ?_⟩
    · cases hn
    · cases hconstant

theorem plainValue_ensures (constant : Bool) :
    Ensures (plainValue constant) (IsReadValue constant) := by
  refine current_ensures.bind fun token htoken => ?_
  split
  case h_2 n heq =>
    rw [heq] at htoken
    refine advance_ensures.bind fun _ _ => .pure ⟨Value.isLexical_float.mpr htoken, ?_⟩
    rintro - ⟨name, hname⟩
    cases hname
  case h_5 text heq => exact advance_ensures.bind fun _ _ => .pure (isReadValue_namedValue text)
  case h_6 => exact variableValue_ensures constant
  case h_7 => exact failAt_ensures
  -- the other literals hold no number that is written with a point
  all_goals
    refine advance_ensures.bind fun _ _ => .pure ⟨fun n hn => ?_, fun _ ⟨name, hname⟩ => ?_⟩
    · cases hn
    · cases hname

/-- A literal is made of parts that are read, down to any depth. -/
theorem value_ensures (constant : Bool) (depth : Nat) :
    Ensures (value constant depth) (IsReadValue constant) := by
  induction depth with
  | zero =>
    refine current_ensures.bind fun token _ => ?_
    split
    · exact failAt_ensures
    · exact failAt_ensures
    · exact plainValue_ensures constant
  | succ depth ih =>
    refine current_ensures.bind fun token _ => ?_
    split
    · exact (anyBetween_ensures ih).bind fun items hitems => .pure (.list hitems)
    · have hfield : Ensures (do
          let key ← name
          expect .colon
          return (key, ← value constant depth)) fun field => IsReadValue constant field.2 :=
        name_ensures.bind fun key _ => (expect_ensures .colon).bind fun _ _ =>
          ih.bind fun item hitem => .pure hitem
      exact (anyBetween_ensures hfield).bind fun fields hfields => .pure (.object hfields)
    · exact plainValue_ensures constant

/-! ## Type references -/

/-- A type that is read is spelled as the grammar asks. -/
theorem typeRef_ensures (depth : Nat) : Ensures (typeRef depth) (·.IsSpelled depth) := by
  -- An exclamation mark may follow a list and a name alike.
  have hmark {depth : Nat} {base : TypeRef} (hbase : base.IsSpelled depth)
      (hnone : base.isNonNull = false) : Ensures (do
        if ← accept .bang then return .nonNull base else return base) (·.IsSpelled depth) :=
    (accept_ensures .bang).bind fun _ _ => .ite (.pure (.nonNull hbase hnone)) (.pure hbase)
  induction depth with
  | zero =>
    refine (accept_ensures .bracketLeft).bind fun _ _ => .ite ?_ ?_
    · exact current_ensures.bind fun _ _ => failAt_ensures
    · exact name_ensures.bind fun text htext => hmark (.named htext) rfl
  | succ depth ih =>
    refine (accept_ensures .bracketLeft).bind fun _ _ => .ite ?_ ?_
    · refine ih.bind fun item hitem => (expect_ensures _).bind fun _ _ => ?_
      exact hmark (.list hitem) rfl
    · exact name_ensures.bind fun text htext => hmark (.named htext) rfl

/-! ## Arguments and directives -/

theorem argument_ensures (constant : Bool) (depth : Nat) :
    Ensures (argument constant depth) fun a => IsReadValue constant a.value :=
  name_ensures.bind fun _ _ => (expect_ensures .colon).bind fun _ _ =>
    current_ensures.bind fun _ _ => (value_ensures constant depth).bind fun _ hvalue => .pure hvalue

theorem arguments_ensures (constant : Bool) (depth : Nat) :
    Ensures (arguments constant depth) fun args => ∀ a ∈ args, IsReadValue constant a.value :=
  optionalBetween_ensures (argument_ensures constant depth)

theorem directivesWith_ensures (constant : Bool) (depth fuel : Nat) :
    Ensures (directivesWith constant depth fuel) fun directives =>
      ∀ d ∈ directives, ∀ a ∈ d.arguments, IsReadValue constant a.value := by
  induction fuel with
  | zero => exact .pure (by simp)
  | succ fuel ih =>
    refine current_ensures.bind fun _ _ => (accept_ensures .at).bind fun _ _ =>
      .ite ?_ (.pure (by simp))
    refine name_ensures.bind fun _ _ => (arguments_ensures constant depth).bind fun _ hargs =>
      ih.bind fun _ hrest => .pure ?_
    exact List.forall_mem_cons.mpr ⟨hargs, hrest⟩

theorem directives_ensures (constant : Bool) (depth : Nat) :
    Ensures (directives constant depth) fun directives =>
      ∀ d ∈ directives, ∀ a ∈ d.arguments, IsReadValue constant a.value :=
  get_ensures.bind fun _ _ => directivesWith_ensures constant depth _

/-- Directives on definitions hold no variables. -/
theorem constDirectives_ensures :
    Ensures constDirectives fun directives => ∀ d ∈ directives, d.IsConstant :=
  (directives_ensures true maxDepth).mono fun _ h d hd a ha => (h d hd a ha).closed rfl

/-! ## Executable definitions -/

theorem selectionSet_ensures (depth : Nat) : Ensures (selectionSet depth) fun _ => True := by
  induction depth with
  | zero => exact current_ensures.bind fun _ _ => failAt_ensures
  | succ depth ih =>
    have hdirectives := directives_ensures false depth
    refine (manyBetween_ensures (Q := fun _ => True) ?_).trivial
    refine (peek_ensures .spread).bind fun _ _ => .ite ?_ ?_
    · refine (expect_ensures .spread).bind fun _ _ => (acceptKeyword_ensures "on").bind fun _ _ => ?_
      refine peekName_ensures.bind fun _ _ => .ite ?_ ?_
      · exact name_ensures.bind fun _ _ => hdirectives.bind fun _ _ => .pure True.intro
      · refine someName_ensures.branch (.pure True.intro) fun _ _ => ?_
        exact hdirectives.bind fun _ _ => ih.bind fun _ _ => .pure True.intro
    · refine name_ensures.bind fun first hfirst => (accept_ensures .colon).bind fun _ _ => ?_
      refine name_ensures.branch (.pure hfirst) fun _ _ => ?_
      refine (arguments_ensures false depth).bind fun _ _ => hdirectives.bind fun _ _ => ?_
      refine (peek_ensures .braceLeft).bind fun _ _ => ih.branch (.pure True.intro) fun _ _ => ?_
      exact .pure True.intro

theorem operationKind_ensures : Ensures operationKind fun _ => True := by
  refine current_ensures.bind fun _ _ => name_ensures.bind fun _ _ => ?_
  split
  · exact .pure True.intro
  · exact failAt_ensures

theorem description_ensures : Ensures description fun _ => True :=
  current_ensures.bind fun _ _ =>
    (advance_ensures.bind fun _ _ => .pure True.intro).ite (.pure True.intro)

theorem defaultValue_ensures :
    Ensures (some <$> value true maxDepth) fun default => ∀ v ∈ default, v.IsLexical := by
  refine (value_ensures true maxDepth).map fun v hv w hw => ?_
  cases hw
  exact hv.lexical

/-- There may be no default at all. -/
theorem noDefault_ensures :
    Ensures (pure none) fun default : Option Value => ∀ v ∈ default, v.IsLexical :=
  .pure nofun

theorem variableDef_ensures : Ensures variableDef fun _ => True := by
  refine description_ensures.bind fun _ _ => (expect_ensures .dollar).bind fun _ _ => ?_
  refine name_ensures.bind fun _ _ => (expect_ensures .colon).bind fun _ _ => ?_
  refine (typeRef_ensures maxDepth).bind fun _ _ => (accept_ensures .equals).bind fun _ _ => ?_
  refine defaultValue_ensures.branch noDefault_ensures fun _ _ => ?_
  exact constDirectives_ensures.bind fun _ _ => .pure True.intro

/-- What reading promises of an argument or an input field. -/
structure IsReadInput (d : InputValueDef) : Prop where
  spelled : d.IsSpelled
  lexical : d.IsLexical

theorem IsReadInput.grounded {d : InputValueDef} (h : IsReadInput d) : d.IsGrounded :=
  h.spelled.type.isGrounded

theorem inputValueDef_ensures : Ensures inputValueDef IsReadInput := by
  refine description_ensures.bind fun _ _ => name_ensures.bind fun key hkey => ?_
  refine (expect_ensures .colon).bind fun _ _ => (typeRef_ensures maxDepth).bind fun type htype => ?_
  refine (accept_ensures .equals).bind fun _ _ => ?_
  refine defaultValue_ensures.branch noDefault_ensures fun _ hdefault => ?_
  exact constDirectives_ensures.bind fun _ _ =>
    .pure ⟨⟨hkey, htype⟩, hdefault⟩

theorem operation_ensures : Ensures operation fun _ => True := by
  refine (peek_ensures .braceLeft).bind fun _ _ => .ite ?_ ?_
  · exact (selectionSet_ensures maxDepth).bind fun _ _ => .pure True.intro
  · refine description_ensures.bind fun _ _ => operationKind_ensures.bind fun _ _ => ?_
    refine peekName_ensures.bind fun _ _ => ?_
    refine someName_ensures.branch (.pure True.intro) fun _ _ => ?_
    refine (optionalBetween_ensures variableDef_ensures).bind fun _ _ => ?_
    refine (directives_ensures false maxDepth).bind fun _ _ => ?_
    exact (selectionSet_ensures maxDepth).bind fun _ _ => .pure True.intro

theorem fragment_ensures : Ensures fragment fun _ => True := by
  refine description_ensures.bind fun _ _ => (expectKeyword_ensures "fragment").bind fun _ _ => ?_
  refine current_ensures.bind fun _ _ => ?_
  refine unexpected_ensures.guard (name_ensures.bind fun _ _ => ?_)
  refine (expectKeyword_ensures "on").bind fun _ _ => name_ensures.bind fun _ _ => ?_
  refine (directives_ensures false maxDepth).bind fun _ _ => ?_
  exact (selectionSet_ensures maxDepth).bind fun _ _ => .pure True.intro

/-! ## Parts of type definitions -/

theorem argumentDefs_ensures : Ensures argumentDefs fun defs => ∀ d ∈ defs, IsReadInput d :=
  optionalBetween_ensures inputValueDef_ensures

/-- What reading promises of a field. -/
structure IsReadField (d : FieldDef) : Prop where
  spelled : d.IsSpelled
  grounded : d.IsGrounded
  lexical : d.IsLexical

theorem fieldDef_ensures : Ensures fieldDef IsReadField := by
  refine description_ensures.bind fun _ _ => name_ensures.bind fun key hkey => ?_
  refine argumentDefs_ensures.bind fun args hargs => (expect_ensures .colon).bind fun _ _ => ?_
  refine (typeRef_ensures maxDepth).bind fun type htype => ?_
  refine constDirectives_ensures.bind fun _ hdirectives => .pure ⟨?_, ?_, ?_⟩
  · exact ⟨hkey, fun d hd => (hargs d hd).spelled, htype⟩
  · exact ⟨htype.isGrounded, fun d hd => (hargs d hd).grounded, hdirectives⟩
  · exact fun d hd => (hargs d hd).lexical

theorem fieldDefs_ensures : Ensures fieldDefs fun defs => ∀ d ∈ defs, IsReadField d :=
  optionalBetween_ensures fieldDef_ensures

theorem inputFieldDefs_ensures : Ensures inputFieldDefs fun defs => ∀ d ∈ defs, IsReadInput d :=
  optionalBetween_ensures inputValueDef_ensures

theorem interfaces_ensures :
    Ensures interfaces fun parents => ∀ parent ∈ parents, Text.isIdentifier parent :=
  (acceptKeyword_ensures "implements").bind fun _ _ =>
    ((manySeparated_ensures name_ensures).mono fun _ h => h.2).ite (.pure (by simp))

theorem unionMembers_ensures :
    Ensures unionMembers fun members => ∀ member ∈ members, Text.isIdentifier member :=
  (accept_ensures .equals).bind fun _ _ =>
    ((manySeparated_ensures name_ensures).mono fun _ h => h.2).ite (.pure (by simp))

/-- None of the three words becomes an enumeration value. -/
theorem enumValueDef_ensures : Ensures enumValueDef (·.IsSpelled) := by
  refine description_ensures.bind fun text _ => ?_
  refine checkedName_ensures fun token key htoken hkey hword => ?_
  refine constDirectives_ensures.bind fun _ _ => .pure ⟨hkey, ?_⟩
  simpa [htoken, TokenKind.content?] using hword

theorem rootOperation_ensures :
    Ensures rootOperation fun operation => Text.isIdentifier operation.2 :=
  operationKind_ensures.bind fun _ _ => (expect_ensures .colon).bind fun _ _ =>
    name_ensures.bind fun _ hname => .pure hname

/-- Only places that exist are read. -/
theorem directiveLocation_ensures :
    Ensures directiveLocation (· ∈ BuiltIn.directiveLocations) := by
  refine current_ensures.bind fun _ _ => name_ensures.bind fun word _ => ?_
  split
  next hword => exact .pure (List.contains_iff_mem.mp hword)
  next => exact failAt_ensures

/-! ## Type system definitions -/

/-- A schema that is defined has a root type. -/
theorem schemaDef_ensures : Ensures schemaDef fun d => d.operations ≠ [] ∧ d.IsSpelled := by
  refine description_ensures.bind fun _ _ => (expectKeyword_ensures "schema").bind fun _ _ => ?_
  refine constDirectives_ensures.bind fun _ _ => ?_
  exact (manyBetween_ensures rootOperation_ensures).bind fun _ hoperations => .pure hoperations

/-- What reading promises of the body of a type. -/
structure IsReadBody (body : TypeBody) : Prop where
  spelled : body.IsSpelled
  grounded : body.IsGrounded
  lexical : body.IsLexical

/-- Whatever its kind, the body of a type is made of parts that are read. -/
theorem typeParts_ensures (keyword : String) :
    Ensures (typeParts keyword) fun parts => IsReadBody parts.2 := by
  unfold typeParts
  -- One case for each keyword, in the order in which they are compared.
  split
  case h_1 | h_2 =>
    refine interfaces_ensures.bind fun _ hparents => constDirectives_ensures.bind fun _ _ => ?_
    refine fieldDefs_ensures.bind fun _ hdefs => .pure ⟨⟨hparents, ?_⟩, ?_, ?_⟩
    · exact fun d hd => (hdefs d hd).spelled
    · exact fun d hd => (hdefs d hd).grounded
    · exact fun d hd => (hdefs d hd).lexical
  case h_3 =>
    refine constDirectives_ensures.bind fun _ _ => unionMembers_ensures.bind fun _ hmembers => ?_
    exact .pure ⟨hmembers, True.intro, True.intro⟩
  case h_4 =>
    refine constDirectives_ensures.bind fun _ _ => ?_
    exact (optionalBetween_ensures enumValueDef_ensures).bind fun _ hvalues =>
      .pure ⟨hvalues, True.intro, True.intro⟩
  case h_5 =>
    refine constDirectives_ensures.bind fun _ _ => inputFieldDefs_ensures.bind fun _ hdefs => ?_
    refine .pure ⟨?_, ?_, ?_⟩
    · exact fun d hd => (hdefs d hd).spelled
    · exact fun d hd => (hdefs d hd).grounded
    · exact fun d hd => (hdefs d hd).lexical
  case h_6 =>
    exact constDirectives_ensures.bind fun _ _ => .pure ⟨True.intro, True.intro, True.intro⟩

/-- What reading promises of a type and of an extension of one. -/
structure IsReadType (d : TypeDef) : Prop where
  spelled : d.IsSpelled
  grounded : d.body.IsGrounded
  lexical : d.body.IsLexical

theorem typeDef_ensures (keyword : String) : Ensures (typeDef keyword) IsReadType := by
  refine description_ensures.bind fun _ _ => (expectKeyword_ensures keyword).bind fun _ _ => ?_
  refine name_ensures.bind fun key hkey => (typeParts_ensures keyword).bind fun parts hparts => ?_
  exact .pure ⟨⟨hkey, hparts.spelled⟩, hparts.grounded, hparts.lexical⟩

/-- What reading promises of a directive. -/
structure IsReadDirective (d : DirectiveDef) : Prop where
  spelled : d.IsSpelled
  arguments : ∀ argument ∈ d.arguments, IsReadInput argument

theorem directiveDef_ensures : Ensures directiveDef IsReadDirective := by
  refine description_ensures.bind fun _ _ => (expectKeyword_ensures "directive").bind fun _ _ => ?_
  refine (expect_ensures .at).bind fun _ _ => name_ensures.bind fun key hkey => ?_
  refine argumentDefs_ensures.bind fun args hargs => ?_
  refine (acceptKeyword_ensures "repeatable").bind fun _ _ => ?_
  refine (expectKeyword_ensures "on").bind fun _ _ => ?_
  refine (manySeparated_ensures directiveLocation_ensures).bind fun _ hplaces => .pure ⟨?_, hargs⟩
  exact ⟨hkey, fun d hd => (hargs d hd).spelled, hplaces⟩

/-! ## Extensions -/

theorem schemaExtension_ensures : Ensures schemaExtension (·.IsSpelled) := by
  refine (expectKeyword_ensures "extend").bind fun _ _ => ?_
  refine (expectKeyword_ensures "schema").bind fun _ _ => constDirectives_ensures.bind fun _ _ => ?_
  refine (optionalBetween_ensures rootOperation_ensures).bind fun _ hoperations => ?_
  exact unexpected_ensures.guard (.pure hoperations)

theorem typeExtension_ensures (keyword : String) :
    Ensures (typeExtension keyword) IsReadType := by
  refine (expectKeyword_ensures "extend").bind fun _ _ => ?_
  refine (expectKeyword_ensures keyword).bind fun _ _ => name_ensures.bind fun key hkey => ?_
  refine (typeParts_ensures keyword).bind fun parts hparts => unexpected_ensures.guard (.pure ?_)
  exact ⟨⟨hkey, hparts.spelled⟩, hparts.grounded, hparts.lexical⟩

/-! ## Documents -/

/-- What reading promises of a definition. -/
structure IsReadDefinition (d : Definition) : Prop where
  spelled : d.IsSpelled
  grounded : d.IsGrounded
  lexical : d.IsLexical

theorem extension_ensures : Ensures extension IsReadDefinition := by
  refine lookahead_ensures.bind fun next _ => ?_
  split
  · exact schemaExtension_ensures.map fun _ h => ⟨h, True.intro, True.intro⟩
  · refine ((typeExtension_ensures _).map fun _ h => ?_).ite failAt_ensures
    exact ⟨h.spelled, h.grounded, h.lexical⟩
  · exact failAt_ensures

/-- Every definition is as reading promises. -/
theorem definition_ensures : Ensures definition IsReadDefinition := by
  have hoperation : Ensures (.operation <$> operation) IsReadDefinition :=
    operation_ensures.map fun _ _ => ⟨True.intro, True.intro, True.intro⟩
  refine current_ensures.bind fun first hfirst => hoperation.ite ?_
  refine lookahead_ensures.branch (.pure hfirst) fun key _ => ?_
  dsimp only
  split
  · exact failAt_ensures
  · exact schemaDef_ensures.map fun _ h => ⟨h, True.intro, True.intro⟩
  · refine directiveDef_ensures.map fun _ h => ⟨h.spelled, ?_, ?_⟩
    · exact fun d hd => (h.arguments d hd).grounded
    · exact fun d hd => (h.arguments d hd).lexical
  · exact fragment_ensures.map fun _ _ => ⟨True.intro, True.intro, True.intro⟩
  · refine ((typeDef_ensures _).map fun _ h => ?_).ite (hoperation.ite ?_)
    · exact ⟨h.spelled, h.grounded, h.lexical⟩
    · exact failAt_ensures.ite (extension_ensures.ite failAt_ensures)
  · exact failAt_ensures

theorem definitionsUntilEnd_ensures (fuel : Nat) :
    Ensures (definitionsUntilEnd fuel) fun definitions =>
      ∀ d ∈ definitions, IsReadDefinition d := by
  induction fuel with
  | zero => exact unexpected_ensures
  | succ fuel ih =>
    refine current_ensures.bind fun _ _ => .ite (.pure (by simp)) ?_
    refine definition_ensures.bind fun first hfirst => ih.bind fun rest hrest => .pure ?_
    exact List.forall_mem_cons.mpr ⟨hfirst, hrest⟩

/-- All definitions of a document are as reading promises. -/
theorem document_ensures :
    Ensures document fun document => ∀ d ∈ document, IsReadDefinition d := by
  refine definition_ensures.bind fun first hfirst => get_ensures.bind fun _ _ => ?_
  refine (definitionsUntilEnd_ensures _).bind fun rest hrest => .pure ?_
  exact List.forall_mem_cons.mpr ⟨hfirst, hrest⟩

/-! ## Whole texts -/

/-- What a parser ensures holds of whatever it makes of a text, since all tokens of a text are
    well-formed. -/
theorem of_run {p : Parser α} (h : Ensures p Q) {text : String} {a : α}
    (hrun : run p text = .ok a) : Q a := by
  simp only [run, Success.bind_eq_ok, Success.pure_eq_ok] at hrun
  obtain ⟨tokens, hreadable, ⟨result, rest⟩, hresult, rfl⟩ := hrun
  obtain rfl := readable_eq_ok hreadable
  exact (h _ (Token.scan_wellFormed text) result rest hresult).1

end Parser

/-- Every document that is read is spelled as the grammar asks. -/
theorem Document.isSpelled_of_parse {text : String} {document : Document}
    (h : Document.parse text = .ok document) : ∀ d ∈ document, d.IsSpelled :=
  fun d hd => (Parser.of_run Parser.document_ensures h d hd).spelled

/-- The names that become part of the generated code are identifiers in every document that is
    read. -/
theorem Document.wellNamed_of_parse {text : String} {document : Document}
    (h : Document.parse text = .ok document) : document.wellNamed :=
  List.all_eq_true.mpr fun d hd => (isSpelled_of_parse h d hd).wellNamed

/-- Every document that is read is grounded. -/
theorem Document.isGrounded_of_parse {text : String} {document : Document}
    (h : Document.parse text = .ok document) : document.IsGrounded :=
  fun d hd => (Parser.of_run Parser.document_ensures h d hd).grounded

/-- The numbers in defaults are complete in every document that is read. -/
theorem Document.isLexical_of_parse {text : String} {document : Document}
    (h : Document.parse text = .ok document) : ∀ d ∈ document, d.IsLexical :=
  fun d hd => (Parser.of_run Parser.document_ensures h d hd).lexical

/-- The numbers are complete in every literal that is read. -/
theorem Value.isLexical_of_parse {text : String} {v : Value} (h : Value.parse text = .ok v) :
    v.IsLexical := by
  refine Parser.of_run ?_ h
  refine (Parser.value_ensures false Parser.maxDepth).bind fun result hresult => ?_
  exact Parser.expectEnd_ensures.bind fun _ _ => .pure hresult.lexical

end SchemaClasses
