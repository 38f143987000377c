import LiveTemplate.Html.Tree

/-!
# Elements and start tags

The trees of HTML nest as the tags do, whatever is void, closes itself or is never closed.  So their
elements, in document order, are those that the start tags begin, in the order of the tags, with the
attributes that the tags write: `elementsOfAll_trees`.

A builder has its elements in three places: in the finished trees, as the open elements, and below
these.  Ending elements only moves them from one place to another.
-/

namespace LiveTemplate

set_option autoImplicit false

/-- An open element and everything below it so far, in document order. -/
def OpenElement.elements (o : OpenElement) : List Element :=
  o.element :: Tree.elementsOfAll o.children.reverse

namespace TreeBuilder

/-- The elements that have begun so far, in document order. -/
def elements (b : TreeBuilder) : List Element :=
  Tree.elementsOfAll b.finished.reverse ++ b.opened.reverse.flatMap OpenElement.elements

/-- A finished node comes behind all that have begun before it. -/
theorem elements_add (b : TreeBuilder) (t : Tree) :
    (b.add t).elements = b.elements ++ t.elements := by
  have hone : Tree.elementsOfAll [t] = t.elements := by
    simp [Tree.elementsOfAll]
  unfold add
  cases hopened : b.opened with
  | nil => simp [elements, hopened, Tree.elementsOfAll_append, hone]
  | cons inner outer =>
      simp [elements, hopened, OpenElement.elements, Tree.elementsOfAll_append, hone]

theorem length_opened_add (b : TreeBuilder) (t : Tree) :
    (b.add t).opened.length = b.opened.length := by
  unfold add
  cases b.opened <;> simp

@[simp] theorem elements_read (b : TreeBuilder) (s : List Char) :
    (b.read s).elements = b.elements := rfl

@[simp] theorem elements_flush (b : TreeBuilder) (make : String → Leaf) :
    (b.flush make).elements = b.elements := by
  unfold flush
  split
  · rfl
  · rw [elements_add, Tree.elements, List.append_nil]
    rfl

@[simp] theorem elements_flushText (b : TreeBuilder) : b.flushText.elements = b.elements :=
  elements_flush b .text

theorem length_opened_flushText (b : TreeBuilder) :
    b.flushText.opened.length = b.opened.length := by
  unfold flushText flush
  split
  · rfl
  · rw [length_opened_add]

@[simp] theorem elements_addLeaf (b : TreeBuilder) (make : String → Leaf) (s : List Char) :
    (b.addLeaf make s).elements = b.elements := by
  simp [addLeaf]

/-- Only the beginning of an element brings one. -/
theorem elements_start (b : TreeBuilder) (e : Element) :
    (b.start e).elements = b.elements ++ [e] := by
  have hflush := b.elements_flushText
  simp only [start, elements, List.reverse_cons, List.flatMap_append, List.flatMap_singleton] at *
  rw [← List.append_assoc, hflush]
  rfl

@[simp] theorem elements_endInner (b : TreeBuilder) : b.endInner.elements = b.elements := by
  have hflush := b.elements_flushText
  unfold endInner
  dsimp only
  generalize b.flushText = x at *
  cases hopened : x.opened with
  | nil => exact hflush
  | cons inner outer =>
      rw [elements_add, ← hflush]
      simp [elements, hopened, OpenElement.elements, Tree.elements]

theorem length_opened_endInner (b : TreeBuilder) :
    b.endInner.opened.length = b.opened.length - 1 := by
  have hlength := b.length_opened_flushText
  unfold endInner
  dsimp only
  generalize b.flushText = x at *
  rw [← hlength]
  cases hopened : x.opened with
  | nil => simp [hopened]
  | cons inner outer =>
      rw [length_opened_add]
      rfl

@[simp] theorem elements_endMany (b : TreeBuilder) (count : Nat) :
    (b.endMany count).elements = b.elements := by
  induction count generalizing b with
  | zero => rfl
  | succ count ih => rw [endMany, ih, elements_endInner]

theorem length_opened_endMany (b : TreeBuilder) (count : Nat) :
    (b.endMany count).opened.length = b.opened.length - count := by
  induction count generalizing b with
  | zero => rfl
  | succ count ih =>
      rw [endMany, ih, length_opened_endInner]
      omega

@[simp] theorem elements_endNamed (b : TreeBuilder) (name : String) :
    (b.endNamed name).elements = b.elements := by
  unfold endNamed
  dsimp only
  split
  · exact b.elements_flushText
  · rw [elements_endMany, elements_flushText]

/-- All that have begun are in the finished trees at the end. -/
theorem elementsOfAll_finish (b : TreeBuilder) : Tree.elementsOfAll b.finish = b.elements := by
  unfold finish
  dsimp only
  have hnone : (b.flushText.endMany b.flushText.opened.length).opened = [] := by
    rw [← List.length_eq_zero_iff, length_opened_endMany, Nat.sub_self]
  rw [← b.elements_flushText, ← elements_endMany b.flushText b.flushText.opened.length]
  unfold elements
  rw [hnone]
  exact (List.append_nil _).symm

end TreeBuilder

namespace Html

/-- The element that a token begins. -/
def Token.element? : Token → Option Element
  | .startTag name attributes _ => some (elementOf name attributes)
  | _ => none

/-- A token brings the element that it begins, and nothing else. -/
theorem Reading.elements_next (r : Reading) (t : Token) :
    (r.next t).builder.elements = r.builder.elements ++ t.element?.toList := by
  cases t with
  | startTag name attributes closed =>
      have hstart := r.builder.elements_start (elementOf name attributes)
      rw [next, startTag]
      dsimp only [build]
      split
      · exact (TreeBuilder.elements_endNamed ..).trans hstart
      · split
        · exact (TreeBuilder.elements_endNamed ..).trans hstart
        · exact hstart
  | endTag name =>
      rw [next, endTag]
      split
      · exact (List.append_nil _).symm
      · exact (TreeBuilder.elements_endNamed ..).trans (List.append_nil _).symm
  | text | comment | doctype | cdata | declaration | instruction =>
      simp [next, build, Token.element?]

theorem Reading.elements_foldl_next (r : Reading) (tokens : List Token) :
    (tokens.foldl Reading.next r).builder.elements
      = r.builder.elements ++ tokens.filterMap Token.element? := by
  induction tokens generalizing r with
  | nil => exact (List.append_nil _).symm
  | cons t rest ih =>
      rw [List.foldl_cons, ih, r.elements_next, List.append_assoc]
      cases helement : t.element? <;> simp [helement]

/-- The elements of the trees are those that the tokens begin. -/
theorem elementsOfAll_trees {markup : String} {tokens : List Token}
    (h : Html.tokens markup.toList = .ok tokens) :
    (Html.trees markup).map Tree.elementsOfAll = .ok (tokens.filterMap Token.element?) := by
  unfold Html.trees
  rw [h]
  show Except.ok (Tree.elementsOfAll (tokens.foldl Reading.next {}).builder.finish) = _
  rw [TreeBuilder.elementsOfAll_finish, Reading.elements_foldl_next]
  rfl

end Html

end LiveTemplate
