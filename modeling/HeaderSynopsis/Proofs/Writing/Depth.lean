import HeaderSynopsis.Proofs.Generation.Surroundings
import HeaderSynopsis.Proofs.Manifest.LoadedTree
import HeaderSynopsis.Proofs.Writing.Pairs

namespace HeaderSynopsis.Declaration.Entity

def scopesAround (root : Entity) (position : Position) : Nat :=
  (root.around position).countP (·.kind.word ∈ ["namespace", "class", "enum"])

theorem scopesAround_cons {root child : Entity} {index : Nat}
    (h : root.children[index]? = some child) (rest : Position) :
    root.scopesAround (index :: rest) =
      child.scopesAround rest +
        if root.kind.word ∈ ["namespace", "class", "enum"] then 1 else 0 := by
  rw [scopesAround, around_cons, h, Option.elim_some, List.countP_cons]
  simp only [decide_eq_true_eq, scopesAround]

/-- In an orderly tree a label of an access stands in a scope. -/
theorem scopesAround_pos_of_access {root entity : Entity} {position : Position}
    (h : ∀ e ∈ root.walk, e.Orderly) (hleads : root.descendant? position = some entity)
    (hr : root.kind.word ≠ "access") (ha : entity.kind.word = "access") :
    0 < root.scopesAround position := by
  induction position generalizing root with
  | nil =>
    obtain rfl := Option.some.inj hleads
    exact absurd ha hr
  | cons index rest ih =>
    obtain ⟨child, hchild, hbelow⟩ := Option.bind_eq_some_iff.mp hleads
    have hm := List.mem_of_getElem? hchild
    rw [scopesAround_cons hchild]
    by_cases haccess : child.kind.word = "access"
    · have hclass := (h root root.self_mem_walk).access child hm haccess
      rw [if_pos (by simp [hclass])]
      omega
    · have hrest := ih (fun e he => h e (mem_walk_of_child hm he)) hbelow haccess
      omega

end HeaderSynopsis.Declaration.Entity

namespace HeaderSynopsis.Writing

open Declaration Generation

def depth (ws : List Write) : Int := (ws.count .indent : Int) - ws.count .unindent

theorem depth_append (ws vs : List Write) : depth (ws ++ vs) = depth ws + depth vs := by
  simp only [depth, List.count_append]
  omega

theorem depth_cons (w : Write) (ws : List Write) : depth (w :: ws) = depth [w] + depth ws :=
  depth_append [w] ws

theorem depth_of_flat {ws : List Write} (h : Flat ws) : depth ws = 0 := by
  have habsent (w : Write) (hw : w.isFlat = false) : ws.count w = 0 :=
    List.count_eq_zero.mpr fun hm => by simp [List.all_eq_true.mp h w hm] at hw
  rw [depth, habsent .indent rfl, habsent .unindent rfl]
  rfl

def StaysAbove (low : Int) (ws : List Write) : Prop := ∀ before, before <+: ws → low ≤ depth before

namespace StaysAbove

variable {low : Int} {ws vs : List Write}

theorem nil (h : low ≤ 0) : StaysAbove low [] := by
  intro before hb
  rwa [List.prefix_nil.mp hb]

theorem singleton {w : Write} (h : low ≤ 0) (hw : low ≤ depth [w]) : StaysAbove low [w] := by
  intro before hb
  rcases List.prefix_concat_iff.mp (List.nil_append [w] ▸ hb) with rfl | hnil
  · exact hw
  · rwa [List.prefix_nil.mp hnil]

/-- What follows begins at the level that the first steps have led to. -/
theorem append (h : StaysAbove low ws) (h' : StaysAbove (low - depth ws) vs) :
    StaysAbove low (ws ++ vs) := by
  intro before hb
  rcases List.prefix_or_prefix_of_prefix hb (List.prefix_append ws vs) with hw | ⟨rest, rfl⟩
  · exact h before hw
  · have hrest := h' rest ((List.prefix_append_right_inj ws).mp hb)
    rw [depth_append]
    omega

theorem weaken {high : Int} (h : StaysAbove high ws) (hl : low ≤ high) : StaysAbove low ws :=
  fun before hb => Int.le_trans hl (h before hb)

theorem of_prefix (h : StaysAbove low ws) (hp : vs <+: ws) : StaysAbove low vs :=
  fun before hb => h before (hb.trans hp)

/-- After the first step the others begin at the level that it has led to. -/
theorem of_cons {w : Write} (h : StaysAbove low (w :: ws)) :
    low ≤ depth [w] ∧ StaysAbove (low - depth [w]) ws := by
  refine ⟨h [w] (List.prefix_append [w] ws), fun before hb => ?_⟩
  have hall := h (w :: before) (List.cons_prefix_cons.mpr ⟨rfl, hb⟩)
  rw [depth_cons] at hall
  omega

/-- Steps between two others that together lead nowhere. -/
theorem between {first last : Write} (h : StaysAbove (low - depth [first]) ws) (hws : depth ws = 0)
    (hlow : low ≤ 0) (hfirst : low ≤ depth [first]) (hboth : depth [first] + depth [last] = 0) :
    StaysAbove low ([first] ++ ws ++ [last]) := by
  have hlast : StaysAbove (low - depth ([first] ++ ws)) [last] := by
    rw [depth_append, hws, Int.add_zero]
    exact .singleton (by omega) (by omega)
  exact ((singleton hlow hfirst).append h).append hlast

end StaysAbove

namespace Paired

variable {inside : Bool} {ws : List Write}

/-- Whatever is paired leads back to the level that it began at. -/
theorem depth_eq (h : Paired inside ws) : depth ws = 0 := by
  induction h with
  | nil => rfl
  | @plain _ w h =>
    cases w with
    | indent => exact absurd h Bool.false_ne_true
    | unindent => exact absurd h Bool.false_ne_true
    | _ => rfl
  | append _ _ ih ih' => rw [depth_append, ih, ih']; rfl
  | group opener closer _ _ ih =>
    have hopen : depth [.punctuation (String.singleton opener)] = 0 := rfl
    have hclose : depth [.punctuation (String.singleton closer)] = 0 := rfl
    rw [depth_append, depth_append, ih, hopen, hclose]
    rfl
  | block _ ih =>
    rw [depth_append, depth_append, ih]
    rfl
  | label _ ih =>
    rw [depth_append, depth_append, ih]
    rfl

def lowest (inside : Bool) : Int := if inside then -1 else 0

theorem lowest_nonpos (inside : Bool) : lowest inside ≤ 0 := by
  cases inside <;> decide

/-- Inside a block the steps may leave it by one level, elsewhere by none. -/
theorem staysAbove (h : Paired inside ws) : StaysAbove (lowest inside) ws := by
  induction h with
  | nil => exact .nil (lowest_nonpos _)
  | @plain inside w h =>
    have hpaired : Paired inside [w] := plain h
    exact .singleton (lowest_nonpos _) (hpaired.depth_eq ▸ lowest_nonpos _)
  | append h _ ih ih' =>
    refine ih.append ?_
    rwa [h.depth_eq, Int.sub_zero]
  | group opener closer _ h ih =>
    refine .between ?_ h.depth_eq (lowest_nonpos _) (lowest_nonpos _) rfl
    change StaysAbove (lowest _ - 0) _
    rwa [Int.sub_zero]
  | @block inside ws h ih =>
    -- A label inside leads back to the level around the block and no further.
    have hlow := lowest_nonpos inside
    refine .between (ih.weaken ?_) h.depth_eq hlow (Int.le_trans hlow (by decide)) rfl
    change lowest inside - 1 ≤ -1
    omega
  | label h ih =>
    exact .between (ih.weaken (by decide)) h.depth_eq (by decide) (by decide) rfl

end Paired

/-- The definition of whatever may hold others leads one level inwards, that of a file nowhere. -/
theorem depth_opening {entity : Entity} (ha : entity.kind.acceptsChildren = true) :
    depth (entity.head ++ entity.opening) =
      if entity.kind.word ∈ ["namespace", "class", "enum"] then 1 else 0 := by
  by_cases hw : entity.kind.word ∈ ["namespace", "class", "enum"]
  · have hs : entity.IsScope := ⟨hw, Entity.isContainer_of_acceptsChildren ha⟩
    have hheading : Paired false (entity.head ++ entity.beforeBrace) :=
      (paired_head hs.ne_access).append (paired_beforeBrace entity)
    rw [if_pos hw, Entity.opening_of_isScope hs, ← List.append_assoc, depth_append,
      hheading.depth_eq]
    rfl
  · have hfile : entity.kind = .file := by
      cases hk : entity.kind <;> simp_all [EntityKind.word, EntityKind.acceptsChildren]
    have haccess : entity.kind.word ≠ "access" := by
      rw [hfile]
      decide
    have hopening : entity.opening = [] := by
      rw [Entity.opening, hfile]
    have hhead : Paired false entity.head := paired_head haccess
    rw [if_neg hw, hopening, List.append_nil, hhead.depth_eq]

/-- In an orderly tree an entity that is reached is as deep as there are scopes around it. -/
theorem depth_writtenBefore {decide : Entity → Detail} {root entity : Entity} {position : Position}
    (h : ∀ e ∈ root.walk, e.Orderly) (hreaches : Reaches decide root position entity) :
    depth (writtenBefore decide root position) = root.scopesAround position := by
  induction position generalizing root with
  | nil => rfl
  | cons index rest ih =>
    obtain ⟨-, child, hchild, hbelow⟩ := reaches_cons.mp hreaches
    have hm := List.mem_of_getElem? hchild
    have haccepts := (h root root.self_mem_walk).leaf (List.ne_nil_of_mem hm)
    have hsiblings : Paired true ((root.children.take index).flatMap (written decide)) :=
      .flatMap fun sibling hsibling => paired_written
        (fun e he => h e (Entity.mem_walk_of_child (List.mem_of_mem_take hsibling) he)) fun _ => rfl
    have hrest := ih (fun e he => h e (Entity.mem_walk_of_child hm he)) hbelow
    rw [writtenBefore_cons hchild, depth_append, depth_append, depth_opening haccepts,
      hsiblings.depth_eq, hrest, Entity.scopesAround_cons hchild]
    split <;> push_cast <;> omega

/-- Nothing before an entity leads further out than to where the root stands. -/
theorem staysAbove_writtenBefore {decide : Entity → Detail} {root entity : Entity}
    {position : Position} (h : ∀ e ∈ root.walk, e.Orderly) (hr : root.kind.word ≠ "access")
    (hreaches : Reaches decide root position entity) :
    StaysAbove 0 (writtenBefore decide root position) := by
  have hpaired : Paired false (written decide root) := paired_written h fun ha => absurd ha hr
  refine hpaired.staysAbove.of_prefix ?_
  rw [written_of_reaches hreaches, List.append_assoc]
  exact List.prefix_append _ _

end HeaderSynopsis.Writing
