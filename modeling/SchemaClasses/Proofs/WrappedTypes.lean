import SchemaClasses.Code.TypeExpr
import SchemaClasses.Proofs.Success
import Mathlib

/-!
# Wrapped types

A reference to a type is a name within a stack of wrappers. The stack and the name can be read off
the source text, so different references have different texts, and the names that a reference says
it needs for its wrappers are those that its text calls.
-/

namespace SchemaClasses.TypeRef

/-! ## Stacks of wrappers -/

/-- A reference within one more wrapper. -/
def Wrapper.around : Wrapper → TypeRef → TypeRef
  | .list, t => .list t
  | .nonNull, t => .nonNull t

/-- A reference within a stack of wrappers, outermost first. -/
def within (stack : List Wrapper) (core : TypeRef) : TypeRef :=
  stack.foldr Wrapper.around core

@[simp] theorem within_nil (core : TypeRef) : within [] core = core := rfl

@[simp] theorem within_cons (w : Wrapper) (stack : List Wrapper) (core : TypeRef) :
    within (w :: stack) core = w.around (within stack core) := rfl

theorem emit_around (w : Wrapper) (t : TypeRef) : (w.around t).emit = w.wrap <$> t.emit := by
  cases w <;> rfl

theorem wrappers_within (stack : List Wrapper) (core : TypeRef) :
    (within stack core).wrappers = stack ++ core.wrappers := by
  induction stack with
  | nil => rfl
  | cons w stack ih => cases w <;> simp [Wrapper.around, wrappers, ih]

theorem baseName_within (stack : List Wrapper) (core : TypeRef) :
    (within stack core).baseName = core.baseName := by
  induction stack with
  | nil => rfl
  | cons w stack ih => cases w <;> simp [Wrapper.around, baseName, ih]

theorem mem_wrapperNames_within {stack : List Wrapper} {name : String} {i : Import} :
    i ∈ (within stack (.named name)).wrapperNames ↔ ∃ w ∈ stack, w.toImport = i := by
  rw [wrapperNames, Import.mem_sorted, wrappers_within, List.mem_map]
  simp [wrappers]

/-! ## Text -/

/-- What a wrapper puts in front of the text within it. -/
def Wrapper.opening (w : Wrapper) : List Char :=
  w.toImport.text.toList ++ ['(']

theorem Wrapper.toList_wrap (w : Wrapper) (inner : String) :
    (w.wrap inner).toList = w.opening ++ (inner.toList ++ [')']) := by
  simp [wrap, opening]

/-- The text of a name within a stack of wrappers. -/
def wrapAll (stack : List Wrapper) (name : String) : String :=
  stack.foldr Wrapper.wrap name

/-- A wrapped name is written with its wrappers around it. -/
theorem emit_within_named (stack : List Wrapper) (name : String) :
    (within stack (.named name)).emit = .ok (wrapAll stack name) := by
  induction stack with
  | nil => rfl
  | cons w stack ih =>
    rw [within_cons, emit_around, ih]
    rfl

/-- A foreign node fails within any wrappers. -/
theorem emit_within_foreign (stack : List Wrapper) (kind : NodeKind) :
    (within stack (.foreign kind)).emit = .error kind := by
  induction stack with
  | nil => rfl
  | cons w stack ih =>
    rw [within_cons, emit_around, ih]
    rfl

/-! ## Peeling -/

/-- What is within a wrapper that makes up a text. -/
def Wrapper.inner? (w : Wrapper) (text : List Char) : Option (List Char) :=
  (text.dropPrefix? w.opening).bind (·.dropSuffix? [')'])

/-- The wrapper that makes up a text, and what is within it. -/
def outermost? (text : List Char) : Option (Wrapper × List Char) :=
  [Wrapper.list, .nonNull].findSome? fun w => (w.inner? text).map (w, ·)

/-- A wrapper is told by what it puts in front. -/
theorem Wrapper.inner?_eq_some_iff {w : Wrapper} {text inner : List Char} :
    w.inner? text = some inner ↔ text = w.opening ++ (inner ++ [')']) := by
  simp only [inner?, Option.bind_eq_some_iff, List.dropPrefix?_eq_some_iff,
    List.dropSuffix?_eq_some_iff, beq_iff_eq]
  constructor
  · rintro ⟨rest, ⟨_, rfl, rfl⟩, _, rfl, rfl⟩
    rfl
  · rintro rfl
    exact ⟨_, ⟨_, rfl, rfl⟩, _, rfl, rfl⟩

theorem outermost?_eq_some {text inner : List Char} {w : Wrapper}
    (h : outermost? text = some (w, inner)) : text = w.opening ++ (inner ++ [')']) := by
  obtain ⟨w', -, hw⟩ := List.exists_of_findSome?_eq_some h
  obtain ⟨inner', hinner, heq⟩ := Option.map_eq_some_iff.mp hw
  cases heq
  exact Wrapper.inner?_eq_some_iff.mp hinner

theorem outermost?_length {text inner : List Char} {w : Wrapper}
    (h : outermost? text = some (w, inner)) : inner.length < text.length := by
  rw [outermost?_eq_some h, List.length_append, List.length_append, List.length_singleton]
  omega

/-- The wrappers that a text starts and ends with, outermost first, and what is within all of
    them. -/
def peel (text : List Char) : List Wrapper × List Char :=
  match _found : outermost? text with
  | some (w, inner) => (w :: (peel inner).1, (peel inner).2)
  | none => ([], text)
termination_by text.length
decreasing_by all_goals exact outermost?_length ‹_›

/-- No wrapper's opening is the start of another's. -/
theorem Wrapper.opening_append_inj {w other : Wrapper} {rest more : List Char}
    (h : w.opening ++ rest = other.opening ++ more) : w = other ∧ rest = more := by
  cases w <;> cases other <;> simp_all [opening, toImport, Import.text]

theorem outermost?_wrap (w : Wrapper) (inner : List Char) :
    outermost? (w.opening ++ (inner ++ [')'])) = some (w, inner) := by
  cases hfound : outermost? (w.opening ++ (inner ++ [')'])) with
  | none =>
    have hself := List.findSome?_eq_none_iff.mp hfound w (by cases w <;> simp)
    rw [Wrapper.inner?_eq_some_iff.mpr rfl] at hself
    cases hself
  | some found =>
    obtain ⟨other, inner'⟩ := found
    obtain ⟨rfl, hinner⟩ := Wrapper.opening_append_inj (outermost?_eq_some hfound)
    rw [List.append_cancel_right hinner]

/-- A wrapper is peeled off first. -/
theorem peel_wrap (w : Wrapper) (inner : List Char) :
    peel (w.opening ++ (inner ++ [')'])) = (w :: (peel inner).1, (peel inner).2) := by
  rw [peel]
  split
  case h_1 found =>
    rw [outermost?_wrap] at found
    cases found
    rfl
  case h_2 hnone =>
    rw [outermost?_wrap] at hnone
    cases hnone

theorem peel_name {name : List Char} (h : '(' ∉ name) : peel name = ([], name) := by
  rw [peel]
  split
  case h_1 found =>
    have hmem : '(' ∈ name := by
      rw [outermost?_eq_some found]
      simp [Wrapper.opening]
    exact absurd hmem h
  case h_2 => rfl

/-- All wrappers are peeled off a wrapped name. -/
theorem peel_wrapAll {name : String} (h : '(' ∉ name.toList) (stack : List Wrapper) :
    peel (wrapAll stack name).toList = (stack, name.toList) := by
  induction stack with
  | nil => exact peel_name h
  | cons w stack ih =>
    rw [wrapAll, List.foldr_cons, Wrapper.toList_wrap, peel_wrap, ← wrapAll, ih]

/-! ## Calls in the text -/

/-- The text has a call of something whose name ends with `name`. -/
def Calls (text name : List Char) : Prop :=
  name ++ ['('] <:+: text

/-- The first bracket that opens is that of a call before it, and all others are after it. -/
theorem calls_append_cons {front back name : List Char} (hfront : '(' ∉ front)
    (hname : '(' ∉ name) :
    Calls (front ++ '(' :: back) name ↔ name <:+ front ∨ Calls back name := by
  constructor
  · intro h
    -- The call is in the front, or after it, or across the bracket, where the name ends the front.
    rcases List.infix_append_iff.mp h with hinside | hinside | ⟨left, right, heq, hleft, hright⟩
    · exact absurd (hinside.subset (by simp)) hfront
    · rcases List.infix_cons_iff.mp hinside with hstart | hinside
      · -- A name before the first character is empty.
        obtain rfl : name = [] := by
          cases name with
          | nil => rfl
          | cons c name => simp_all
        exact .inl List.nil_suffix
      · exact .inr hinside
    · cases right with
      | nil =>
        rw [List.append_nil] at heq
        exact absurd (hleft.subset (heq ▸ by simp)) hfront
      | cons c more =>
        obtain ⟨rfl, -⟩ := List.cons_prefix_cons.mp hright
        obtain ⟨rfl, -⟩ := (List.append_cons_inj_of_notMem hname (by simp)).mp heq
        exact .inl hleft
  · rintro (⟨before, rfl⟩ | ⟨before, after, rfl⟩)
    · exact ⟨before, back, by simp⟩
    · exact ⟨front ++ '(' :: before, after, by simp⟩

theorem calls_append_singleton {text name : List Char} :
    Calls (text ++ [')']) name ↔ Calls text name := by
  simp [Calls, List.infix_concat_iff, List.suffix_concat_iff]

/-- Names of the class library end like a wrapper only if they are its name. -/
theorem Wrapper.suffix_iff (w : Wrapper) (i : Import) :
    i.text.toList <:+ w.toImport.text.toList ↔ w.toImport = i := by
  cases w <;> cases i <;> decide

/-- A wrapped name calls its wrappers and nothing else. -/
theorem calls_wrapAll {name : String} (h : '(' ∉ name.toList) (stack : List Wrapper) (i : Import) :
    Calls (wrapAll stack name).toList i.text.toList ↔ ∃ w ∈ stack, w.toImport = i := by
  have hbare : '(' ∉ i.text.toList := by
    cases i <;> decide
  induction stack with
  | nil =>
    have hnot : ¬ Calls (wrapAll [] name).toList i.text.toList := by
      intro hcalls
      exact h (hcalls.subset (by simp))
    simpa using hnot
  | cons w stack ih =>
    have hw : '(' ∉ w.toImport.text.toList := by
      cases w <;> decide
    rw [wrapAll, List.foldr_cons, Wrapper.toList_wrap, Wrapper.opening, List.append_assoc,
      List.singleton_append, calls_append_cons hw hbare, calls_append_singleton, ← wrapAll,
      Wrapper.suffix_iff, List.exists_mem_cons_iff]
    exact or_congr_right ih

/-! ## References -/

/-- A name without brackets within any stack of wrappers is emitted as a text that peels back to the
    stack and the name. The names that the reference needs for its wrappers are the names of the
    class library that its text calls, and no other reference of this kind has the same text. If the
    node at the bottom is not a name, its kind is the error, whatever the wrappers. -/
theorem emit_within {name : String} (hname : '(' ∉ name.toList) (stack : List Wrapper) :
    (∃ text, (within stack (.named name)).emit = .ok text ∧
        peel text.toList = (stack, name.toList) ∧
        ∀ i : Import, i ∈ (within stack (.named name)).wrapperNames ↔
          Calls text.toList i.text.toList) ∧
      (within stack (.named name)).baseName = name ∧
      (∀ (others : List Wrapper) (other : String), '(' ∉ other.toList →
        (within others (.named other)).emit = (within stack (.named name)).emit →
        others = stack ∧ other = name) ∧
      ∀ kind, (within stack (.foreign kind)).emit = .error kind := by
  refine ⟨⟨wrapAll stack name, emit_within_named stack name, peel_wrapAll hname stack, fun i => ?_⟩,
    baseName_within _ _, fun others other hother heq => ?_, emit_within_foreign stack⟩
  · rw [mem_wrapperNames_within, calls_wrapAll hname]
  · rw [emit_within_named, emit_within_named, Except.ok.injEq] at heq
    have hpeel := peel_wrapAll hother others
    rw [heq, peel_wrapAll hname, Prod.mk.injEq, String.toList_inj] at hpeel
    exact ⟨hpeel.1.symm, hpeel.2.symm⟩

/-- A type may be called like a wrapper, which is then not taken for one. -/
theorem emit_within_typeCalledList :
    (within [.nonNull, .nonNull] (.named "List")).emit = .ok "NonNull(NonNull(List))" ∧
      peel "NonNull(NonNull(List))".toList = ([.nonNull, .nonNull], "List".toList) ∧
      ¬ Calls "NonNull(NonNull(List))".toList "List".toList ∧
      (within [.nonNull, .nonNull] (.named "List")).baseName = "List" ∧
      (∀ (others : List Wrapper) (other : String), '(' ∉ other.toList →
        (within others (.named other)).emit = .ok "NonNull(NonNull(List))" →
        others = [.nonNull, .nonNull] ∧ other = "List") ∧
      (within [.nonNull, .nonNull] (.foreign .name)).emit = .error .name := by
  have hname : '(' ∉ "List".toList := by decide
  have hemit : (within [.nonNull, .nonNull] (.named "List")).emit =
      .ok "NonNull(NonNull(List))" := rfl
  obtain ⟨⟨text, htext, hpeel, hcalls⟩, hbase, hinj, hforeign⟩ :=
    emit_within hname [.nonNull, .nonNull]
  obtain rfl : "NonNull(NonNull(List))" = text := Except.ok.inj (hemit.symm.trans htext)
  rw [hemit] at hinj
  have hlist := (hcalls .list).not.mp (by decide)
  exact ⟨hemit, hpeel, hlist, hbase, hinj, hforeign .name⟩

end SchemaClasses.TypeRef
