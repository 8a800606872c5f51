import HeaderSynopsis.Proofs.Writing.PointerTypes

namespace HeaderSynopsis.Declaration

open Writing

inductive ElementType where
  | builtin (spelling : String)
  | named (target : Reference)
  | verbatim (spelling : String)

def ElementType.toType : ElementType → CppType
  | .builtin spelling => .builtin spelling
  | .named target => .named target
  | .verbatim spelling => .verbatim spelling

inductive ArrayType where
  | element (type : ElementType)
  | qualified (qualifier : Qualifier) (inner : ArrayType)
  | array (inner : ArrayType) (size : Option Expression)

namespace ArrayType

def toType : ArrayType → CppType
  | element type => type.toType
  | qualified q inner => q.around inner.toType
  | array inner size => .array inner.toType size

def frontWrites : ArrayType → List Write
  | element type => type.toType.writes
  | qualified q inner => [.keyword q.word, .space] ++ inner.frontWrites
  | array inner _ => inner.frontWrites

def bounds : ArrayType → List (Option Expression)
  | element _ => []
  | qualified _ inner => inner.bounds
  | array inner size => size :: inner.bounds

def boundsBehind : ArrayType → List (Option Expression)
  | element _ => []
  | qualified _ _ => []
  | array inner size => size :: inner.boundsBehind

def boundsBefore : ArrayType → List (Option Expression)
  | element _ => []
  | qualified _ inner => inner.boundsBefore ++ inner.boundsBehind
  | array inner _ => inner.boundsBefore

/-- No qualifier is around an array. -/
def ArraysOutermost : ArrayType → Prop
  | element _ => True
  | qualified _ inner => inner.bounds = []
  | array inner _ => inner.ArraysOutermost

theorem parts_element (type : ElementType) : type.toType.parts = (type.toType.writes, []) := by
  cases type <;> exact congrArg (·, []) (List.append_nil _).symm

theorem isPointer_toType (t : ArrayType) : t.toType.isPointer = false := by
  cases t with
  | element type => cases type <;> rfl
  | qualified q inner => exact q.around_isPointer _
  | array inner size => rfl

theorem parts_qualified (q : Qualifier) (inner : ArrayType) :
    (q.around inner.toType).parts =
      ([.keyword q.word, .space] ++ (inner.toType.parts.1 ++ inner.toType.parts.2), []) := by
  cases q <;> rw [Qualifier.around, CppType.parts, inner.isPointer_toType] <;> rfl

/-- What stands before the name and behind it. -/
theorem parts_toType (t : ArrayType) :
    t.toType.parts = (t.frontWrites ++ t.boundsBefore.flatMap boundWrites,
      t.boundsBehind.flatMap boundWrites) := by
  induction t with
  | element type => rw [toType, parts_element, frontWrites, boundsBefore, boundsBehind,
      List.flatMap_nil, List.append_nil]
  | qualified q inner ih =>
    -- A qualified type is written as a whole, so nothing of it is left for behind the name.
    rw [toType, parts_qualified, ih]
    simp [frontWrites, boundsBefore, boundsBehind]
  | array inner size ih =>
    rw [toType, CppType.parts, ih]
    rfl

theorem length_bounds (t : ArrayType) :
    t.bounds.length = t.boundsBefore.length + t.boundsBehind.length := by
  induction t with
  | element type => rfl
  | qualified q inner ih => rw [bounds, ih, boundsBefore, boundsBehind, List.length_append]; rfl
  | array inner size ih =>
    rw [bounds, boundsBefore, boundsBehind, List.length_cons, List.length_cons, ih, Nat.add_assoc]

theorem boundsBefore_eq_nil_iff (t : ArrayType) : t.boundsBefore = [] ↔ t.ArraysOutermost := by
  induction t with
  | element type => exact iff_of_true rfl trivial
  | qualified q inner ih =>
    rw [boundsBefore, ArraysOutermost, ← List.length_eq_zero_iff, ← List.length_eq_zero_iff,
      List.length_append, inner.length_bounds]
  | array inner size ih => exact ih

theorem boundsBehind_of_arraysOutermost {t : ArrayType} (h : t.ArraysOutermost) :
    t.boundsBehind = t.bounds := by
  induction t with
  | element type => rfl
  | qualified q inner ih => exact h.symm
  | array inner size ih => exact congrArg (size :: ·) (ih h)

/-- A declaration with a name has the bounds behind it, unless a bound comes with the type. -/
theorem declaratorWrites_eq_iff (t : ArrayType) {name : String} (h : name ≠ "") (pack : Bool) :
    declaratorWrites t.toType (some name) pack =
        t.frontWrites ++ (packWrites pack ++ [.space, .identifier name]) ++
          t.bounds.flatMap boundWrites ↔
      t.ArraysOutermost := by
  have hname : nameWrites name = [.space, .identifier name] := if_neg h
  have hwrites : declaratorWrites t.toType (some name) pack =
      t.frontWrites ++ (t.boundsBefore.flatMap boundWrites ++
        (packWrites pack ++ [.space, .identifier name] ++
          t.boundsBehind.flatMap boundWrites)) := by
    rw [declaratorWrites, t.parts_toType, Option.getD_some, hname]
    simp only [List.append_assoc]
  rw [hwrites, List.append_assoc t.frontWrites _ (t.bounds.flatMap boundWrites),
    List.append_right_inj, ← t.boundsBefore_eq_nil_iff]
  constructor
  · intro he
    -- What comes after the type is a bracket on one side, a blank or an ellipsis on the other.
    cases hb : t.boundsBefore with
    | nil => rfl
    | cons size rest =>
      rw [hb] at he
      cases pack <;> exact absurd (List.cons.inj he).1 (by simp [Write.punctuation])
  · intro hb
    rw [hb, boundsBehind_of_arraysOutermost (t.boundsBefore_eq_nil_iff.mp hb)]
    rfl

/-- A variable or parameter of such a type is declared by the element type with all qualifiers, the
name and all bounds, outermost first, exactly if no qualifier is around an array. -/
theorem bounds_behind_name_iff (t : ArrayType) {name : String} (h : name ≠ "") :
    (declaratorWrites t.toType (some name) false =
        t.frontWrites ++ [.space, .identifier name] ++ t.bounds.flatMap boundWrites ↔
      t.ArraysOutermost) ∧
    ∀ default pack,
      Parameter.writes ⟨some name, t.toType, default, pack⟩ =
          t.frontWrites ++ (packWrites pack ++ [.space, .identifier name]) ++
            t.bounds.flatMap boundWrites ++ initializerWrites default ↔
        t.ArraysOutermost := by
  refine ⟨t.declaratorWrites_eq_iff h false, fun default pack => ?_⟩
  rw [Parameter.writes, List.append_left_inj]
  exact t.declaratorWrites_eq_iff h pack

def triple : ArrayType :=
  qualified .const (array (element (.builtin "int")) (some (Expression.int 3)))

def grid : ArrayType :=
  array (array (qualified .const (element (.builtin "int"))) (some (Expression.int 3)))
    (some (Expression.int 2))

theorem bounds_behind_name_iff_grid :
    "a" ≠ "" ∧ declaratorWrites grid.toType (some "a") false =
      grid.frontWrites ++ [.space, .identifier "a"] ++ grid.bounds.flatMap boundWrites :=
  ⟨by decide, (grid.bounds_behind_name_iff (by decide)).1.mpr rfl⟩

/-- The bound of a constant array stands before the name. -/
theorem declaratorWrites_triple :
    declaratorWrites triple.toType (some "a") false =
        triple.frontWrites ++ triple.bounds.flatMap boundWrites ++ [.space, .identifier "a"] ∧
      declaratorWrites triple.toType (some "a") false ≠
        triple.frontWrites ++ [.space, .identifier "a"] ++ triple.bounds.flatMap boundWrites := by
  decide +kernel

end ArrayType

end HeaderSynopsis.Declaration
