import LiveTemplate.Proofs.Plain.Marked
import LiveTemplate.Proofs.Plain.Scanned
import LiveTemplate.Template
import Mathlib.Data.List.Basic

/-!
# Placeholders of plainly written documents are kept

A template is accepted if parsing has kept as many markers as there are placeholders.  That says
nothing about which markers these are: a marker may be lost while the author's markup brings another
one (`placeholder_in_script_taken_over`).

For plainly written documents it says everything.  `kept_of_build` is the exact account: a document
is compiled unless a placeholder stands in raw text, and then every element carries the markers of
the placeholders that its author has put into its tag, or at its place, and no others, in order.
-/

namespace LiveTemplate

set_option autoImplicit false

/-! ## Markers on elements -/

/-- The placeholders that the markers on an element stand for: a name for each that the marker
attribute lists, and none for the marker of a placeholder in text. -/
def Markers.placesOn (m : Markers) (e : Element) : List (Option (List Char)) :=
  (match e.attributes.get? m.attributes with
    | some names => (Markers.split names.toList).map some
    | none => [])
  ++ if e.attributes.has m.nodes then [none] else []

/-- The elements of trees, in document order, with the placeholders that they carry. -/
def Markers.carried (m : Markers) (trees : List Tree) : List (String × List (Option (List Char))) :=
  (Tree.elementsOfAll trees).map fun e => (e.name, m.placesOn e)

/-- The placeholders that the elements of trees carry. -/
def Markers.places (m : Markers) (trees : List Tree) : List (Option (List Char)) :=
  (Tree.elementsOfAll trees).flatMap m.placesOn

theorem Markers.places_eq (m : Markers) (trees : List Tree) :
    m.places trees = (m.carried trees).flatMap (·.2) := by
  rw [carried, List.flatMap_map]
  rfl

theorem Markers.length_placesOn (m : Markers) (e : Element) :
    (m.placesOn e).length = m.countOn e := by
  unfold placesOn countOn
  rw [List.length_append]
  cases e.attributes.get? m.attributes <;> cases e.attributes.has m.nodes <;> simp

/-- The placeholders are counted element by element. -/
theorem Markers.count_eq (m : Markers) (trees : List Tree) :
    m.count trees = (m.places trees).length := by
  unfold count places
  induction Tree.elementsOfAll trees with
  | nil => rfl
  | cons e rest ih =>
      rw [List.map_cons, List.foldr_cons, ih, List.flatMap_cons, List.length_append,
        length_placesOn]

namespace Attributes

theorem ofList_append (as : List (String × String)) (name value : String) :
    ofList (as ++ [(name, value)]) = (ofList as).set name value := by
  rw [ofList, List.foldl_append]
  rfl

/-- An attribute that is not written is not there. -/
theorem get?_ofList_of_not_mem {as : List (String × String)} {name : String}
    (h : ∀ a ∈ as, a.1 ≠ name) : (ofList as).get? name = none := by
  induction as using List.reverseRecOn with
  | nil => rfl
  | append_singleton as a ih =>
      rw [ofList_append, get?_set_of_ne _ _ (h a (by simp)).symm]
      exact ih fun x hx => h x (by simp [hx])

end Attributes

namespace Plain

open Text

/-! ## Elements of a document -/

theorem unmarked_attribute? {w : Word} {a : Attribute} (h : w.attribute? = some a) :
    a.read.1 ∉ [({} : Markers).attributes, ({} : Markers).nodes] := by
  cases w with
  | flag name | quoted name | bare name | filled name =>
      cases h
      exact name.unmarked
  | hole => cases h

/-- The attributes that the author of a tag has written are no markers. -/
theorem ne_marker (t : Tag) :
    ∀ a ∈ (t.words.filterMap (·.2.attribute?)).map Attribute.read,
      a.1 ≠ ({} : Markers).attributes ∧ a.1 ≠ ({} : Markers).nodes := by
  intro a ha
  obtain ⟨written, hwritten, rfl⟩ := List.mem_map.mp ha
  obtain ⟨w, -, hw⟩ := List.mem_filterMap.mp hwritten
  simpa using unmarked_attribute? hw

/-- The element that a tag begins carries the placeholders in the tag. -/
theorem placesOn_begun (t : Tag) :
    (t.begun.name, ({} : Markers).placesOn t.begun) = t.element := by
  have hauthor := ne_marker t
  have hread : (t.readWords.filterMap (·.2)).map Attribute.read
      = (t.words.filterMap (·.2.attribute?)).map Attribute.read ++
        if t.names = [] then [] else [(noteAttribute t.names).read] := by
    unfold Tag.readWords
    rw [List.filterMap_append, List.filterMap_map, List.map_append]
    congr 1
    split <;> rfl
  have hattributes : t.begun.attributes = Attributes.ofList
      ((t.words.filterMap (·.2.attribute?)).map Attribute.read ++
        if t.names = [] then [] else [(noteAttribute t.names).read]) :=
    congrArg Attributes.ofList hread
  have hnodes : t.begun.attributes.has ({} : Markers).nodes = false := by
    rw [Attributes.has_eq_isSome_get?, hattributes, Attributes.get?_ofList_of_not_mem]
    · rfl
    · intro a ha
      rcases List.mem_append.mp ha with ha | ha
      · exact (hauthor a ha).2
      · split at ha
        · cases ha
        · rw [List.mem_singleton.mp ha, read_noteAttribute t.isNoted_names]
          exact (by decide : ({} : Markers).attributes ≠ ({} : Markers).nodes)
  unfold Markers.placesOn Tag.element
  rw [hnodes, hattributes]
  by_cases hnames : t.names = []
  · rw [if_pos hnames, List.append_nil,
      Attributes.get?_ofList_of_not_mem fun a ha => (hauthor a ha).1, hnames]
    rfl
  · rw [if_neg hnames, read_noteAttribute t.isNoted_names, Attributes.ofList_append,
      Attributes.get?_set_self]
    dsimp only
    rw [String.toList_ofList, Markers.split_join hnames fun name hname =>
      delimiter_not_mem (t.isNoted_names name hname).1]
    simp [Tag.begun, Html.elementOf]

theorem placesOn_holeElement :
    (holeElement.name, ({} : Markers).placesOn holeElement) = ("span", [none]) := by
  decide +kernel

/-- The elements of a piece carry its placeholders. -/
theorem placesOn_piece (x : Piece) :
    x.begun.map (fun e => (e.name, ({} : Markers).placesOn e)) = x.elements := by
  cases x with
  | hole => exact congrArg ([·]) placesOn_holeElement
  | startTag t | raw t => exact congrArg ([·]) (placesOn_begun t)
  | text | reference | ampersand | endTag | comment | doctype => rfl

/-- No more placeholders are carried than there are, and those in raw text are missing. -/
theorem length_placeholders_piece (x : Piece) :
    x.placeholders.length = (x.elements.flatMap (·.2)).length + x.lost := by
  cases x with
  | raw t raw content plain => simp [Piece.placeholders, Piece.elements, Piece.lost, Tag.element]
  | startTag t parsed => simp [Piece.placeholders, Piece.elements, Piece.lost, Tag.element]
  | hole | text | reference | ampersand | endTag | comment | doctype => rfl

/-- Where no placeholder stands in raw text, all of them are carried, in order. -/
theorem placeholders_piece {x : Piece} (h : x.lost = 0) :
    x.elements.flatMap (·.2) = x.placeholders := by
  cases x with
  | raw t raw content plain =>
      have hnone : holes content = 0 := h
      simp [Piece.placeholders, Piece.elements, Tag.element, hnone]
  | startTag t parsed => simp [Piece.placeholders, Piece.elements, Tag.element]
  | hole | text | reference | ampersand | endTag | comment | doctype => rfl

namespace Document

theorem map_placesOn (doc : Document) :
    (doc.flatMap Piece.begun).map (fun e => (e.name, ({} : Markers).placesOn e))
      = doc.elements := by
  unfold elements
  rw [List.map_flatMap]
  exact List.flatMap_congr fun x _ => placesOn_piece x

theorem length_placeholders (doc : Document) :
    (doc.flatMap Piece.placeholders).length = (doc.elements.flatMap (·.2)).length + doc.lost := by
  unfold elements lost
  induction doc with
  | nil => rfl
  | cons x rest ih =>
      have hx := length_placeholders_piece x
      simp only [List.flatMap_cons, List.length_append, List.flatMap_append, List.map_cons,
        List.foldr_cons] at ih hx ⊢
      omega

theorem placeholders_eq {doc : Document} (h : doc.lost = 0) :
    doc.elements.flatMap (·.2) = doc.flatMap Piece.placeholders := by
  unfold elements
  unfold lost at h
  induction doc with
  | nil => rfl
  | cons x rest ih =>
      rw [List.map_cons, List.foldr_cons] at h
      rw [List.flatMap_cons, List.flatMap_append, List.flatMap_cons,
        placeholders_piece (x := x) (by omega), ih (by omega)]

/-- The number of placeholders is one less than the number of fragments. -/
theorem length_fragments (doc : Document) :
    doc.fragments.length - 1 = (doc.flatMap Piece.placeholders).length := by
  rw [← (scan_fragments doc).2, LiveTemplate.length_placeholders, List.length_map]

/-- A document is read into trees whose elements carry what its elements carry. -/
theorem exists_trees (doc : Document) :
    ∃ texts trees, (scan {} .html doc.fragments).1 = .ok texts ∧
      Html.trees (String.join texts) = .ok trees ∧
      ({} : Markers).carried trees = doc.elements := by
  obtain ⟨⟨texts, hscan, htext⟩, -⟩ := scan_fragments doc
  obtain ⟨tokens, hreads, hbegun⟩ := begins_marked doc
  rw [← htext] at hreads
  have hall := Html.elementsOfAll_trees (tokens_of_reads hreads)
  cases htrees : Html.trees (String.join texts) with
  | error e =>
      rw [htrees] at hall
      cases hall
  | ok trees =>
      rw [htrees] at hall
      have helements : Tree.elementsOfAll trees = doc.flatMap Piece.begun :=
        (Except.ok.inj hall).trans hbegun
      refine ⟨texts, trees, hscan, htrees, ?_⟩
      rw [Markers.carried, helements, map_placesOn]

/-- The report on a document with placeholders in raw text: their markers are missing. -/
def report (doc : Document) : Fault :=
  .defective ⟨.markersChanged (doc.fragments.length - 1) (doc.fragments.length - 1 - doc.lost), {}⟩

/-- What becomes of a document: its trees, unless markers are missing. -/
theorem exists_build (doc : Document) :
    ∃ markup trees, ({} : Markers).carried trees = doc.elements ∧
      Template.build {} doc.fragments .html =
        if doc.lost = 0 then .ok ⟨doc.fragments.length - 1, .html, {}, markup, trees⟩
        else .error doc.report := by
  obtain ⟨texts, trees, hscan, htrees, hcarried⟩ := doc.exists_trees
  have hlength := doc.length_placeholders
  have hcount : ({} : Markers).count trees = doc.fragments.length - 1 - doc.lost := by
    rw [Markers.count_eq, Markers.places_eq, hcarried, length_fragments]
    omega
  have hparse : parseMarkup ({} : Settings).htmlParser .html (String.join texts) = .ok trees := by
    have hknown : htmlParsers.contains ({} : Settings).htmlParser = true := by decide
    unfold parseMarkup
    dsimp only
    rw [hknown, if_pos rfl, htrees]
  refine ⟨String.join texts, trees, hcarried, ?_⟩
  unfold Template.build Template.buildWith
  rw [show (scan ({} : Settings).markers .html doc.fragments).1 = .ok texts from hscan]
  show (parseMarkup ({} : Settings).htmlParser .html (String.join texts) >>= fun trees =>
    if ({} : Markers).count trees = doc.fragments.length - 1 then _ else _) = _
  rw [hparse]
  show (if ({} : Markers).count trees = doc.fragments.length - 1 then _ else _) = _
  have hlost : doc.fragments.length - 1 - doc.lost = doc.fragments.length - 1 ↔ doc.lost = 0 := by
    rw [length_fragments]
    omega
  rw [hcount, if_congr hlost rfl rfl]
  rfl

/-- A plainly written document is compiled unless a placeholder stands in raw text.  Then every
element carries the placeholders that its author has put into its tag, or at its place, so that
these, in document order, are all placeholders in their order, with the names that they put on the
lists of their tags.  Otherwise the placeholders in raw text are missed when the markers are
counted. -/
theorem kept_of_build (doc : Document) :
    (∀ t, Template.build {} doc.fragments .html = .ok t →
      ({} : Markers).carried t.trees = doc.elements ∧
        ({} : Markers).places t.trees
          = placeholders {} .html .text (doc.fragments.map String.toList)) ∧
      ((∃ t, Template.build {} doc.fragments .html = .ok t) ↔ doc.lost = 0) ∧
      (doc.lost ≠ 0 → Template.build {} doc.fragments .html = .error doc.report) := by
  obtain ⟨markup, trees, hcarried, hbuild⟩ := doc.exists_build
  by_cases hlost : doc.lost = 0
  · rw [if_pos hlost] at hbuild
    have hplaces : ({} : Markers).places trees
        = placeholders {} .html .text (doc.fragments.map String.toList) := by
      rw [(scan_fragments doc).2, ← placeholders_eq hlost, ← hcarried, Markers.places_eq]
    refine ⟨?_, ⟨fun _ => hlost, fun _ => ⟨_, hbuild⟩⟩, fun hnot => absurd hlost hnot⟩
    intro t ht
    cases hbuild.symm.trans ht
    exact ⟨hcarried, hplaces⟩
  · rw [if_neg hlost] at hbuild
    refine ⟨?_, ⟨?_, fun hzero => absurd hzero hlost⟩, fun _ => hbuild⟩
    · intro t ht
      cases hbuild.symm.trans ht
    · rintro ⟨t, ht⟩
      cases hbuild.symm.trans ht

theorem picture_names : ∀ name ∈ ["CLASS", "title", "id"],
    name.toList ≠ [] ∧ name.toList.all Html.isAttributeNameChar = true ∧ '"' ∉ name.toList ∧
      '&' ∉ name.toList ∧
      Html.lowerName name.toList ∉ [({} : Markers).attributes, ({} : Markers).nodes] := by
  decide +kernel

/-- The name of an attribute in `picture`. -/
def pictureName (name : String) (h : name ∈ ["CLASS", "title", "id"]) : AttributeName where
  chars := name.toList
  nonempty := (picture_names name h).1
  plain := List.all_eq_true.mp (picture_names name h).2.1
  unquoted := (picture_names name h).2.2.1
  literal := (picture_names name h).2.2.2.1
  unmarked := (picture_names name h).2.2.2.2

/-- A value without quotes in `picture`. -/
def pictureValue : BareValue where
  chars := ['x', '/', 'y']
  nonempty := List.cons_ne_nil 'x' ['/', 'y']
  plain := List.all_eq_true.mp (by decide : ['x', '/', 'y'].all Html.isBareValueChar = true)
  begins := by simp
  ends := by decide

/-- A tag with a placeholder in a value that holds a `>`, one for a whole value, one behind a value
without quotes and one on its own, and a placeholder in text behind it. -/
def picture : Document :=
  let name : TagName := ⟨'p', [], by decide, by simp⟩
  let tag : Tag := {
    name
    words := [
      (.blank, .quoted (pictureName "CLASS" (by simp)) .tight .single [some '>', none] (by decide)),
      (.blank, .filled (pictureName "title" (by simp)) ⟨Gap.blank.toSpacing, .empty⟩),
      (.blank, .bare (pictureName "id" (by simp)) .tight pictureValue true),
      (.blank, .hole)]
    tail := .empty
    closed := true
    apart := fun _ _ => rfl }
  [.startTag tag rfl, .text [' '] (List.forall_mem_singleton.mpr (by decide)), .hole, .endTag name]

theorem kept_of_build_picture :
    picture.fragments = ["<p CLASS='>", "' title =", " id=x/y", " ", "/> ", "</p>"] ∧
      ∃ t, Template.build {} picture.fragments .html = .ok t ∧
        ({} : Markers).carried t.trees
          = [("p", [some "class".toList, some "title".toList, some "id".toList, some []]),
            ("span", [none])] := by
  have hfragments : picture.fragments
      = ["<p CLASS='>", "' title =", " id=x/y", " ", "/> ", "</p>"] := by
    decide +kernel
  have helements : picture.elements
      = [("p", [some "class".toList, some "title".toList, some "id".toList, some []]),
        ("span", [none])] := by
    decide +kernel
  have hlost : picture.lost = 0 := by decide +kernel
  have hkept := kept_of_build picture
  obtain ⟨t, ht⟩ := hkept.2.1.mpr hlost
  have hcarried := (hkept.1 t ht).1
  rw [helements] at hcarried
  exact ⟨hfragments, t, ht, hcarried⟩

end Document

end Plain

/-- A computation whose value, if there is one, goes to `b` has a value, and this goes to `b`. -/
theorem exists_of_toOption {ε α β : Type} {f : α → β} {b : β} {r : Except ε α}
    (h : r.toOption.map f = some b) : ∃ a, r = .ok a ∧ f a = b := by
  cases r with
  | error e => cases h
  | ok a => exact ⟨a, rfl, Option.some.inj h⟩

/-- The placeholder in the script is lost, and the marker that the author has written on the
paragraph is counted in its place. -/
theorem placeholder_in_script_taken_over :
    ∃ t, Template.build {} ["<script>", "</script><p data-dtpp-attributes=\"x\"></p>"] .html
        = .ok t ∧
      ({} : Markers).carried t.trees = [("script", []), ("p", [some ['x']])] ∧
      placeholders {} .html .text
          (["<script>", "</script><p data-dtpp-attributes=\"x\"></p>"].map String.toList)
        = [none] ∧
      ({} : Markers).places t.trees ≠ placeholders {} .html .text
          (["<script>", "</script><p data-dtpp-attributes=\"x\"></p>"].map String.toList) := by
  have hbuild : (Template.build {} ["<script>", "</script><p data-dtpp-attributes=\"x\"></p>"]
      .html).toOption.map (fun t => ({} : Markers).carried t.trees)
        = some [("script", []), ("p", [some ['x']])] := by
    decide +kernel
  have hplaceholders : placeholders {} .html .text
      (["<script>", "</script><p data-dtpp-attributes=\"x\"></p>"].map String.toList) = [none] := by
    decide +kernel
  obtain ⟨t, ht, hcarried⟩ := exists_of_toOption hbuild
  refine ⟨t, ht, hcarried, hplaceholders, ?_⟩
  rw [hplaceholders, Markers.places_eq, hcarried]
  decide

end LiveTemplate
