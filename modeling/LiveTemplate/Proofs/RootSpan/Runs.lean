import LiveTemplate.Proofs.RootSpan.Homed

/-!
# The root nodes of an instance along a run

Of the root nodes of an instance only the first and the last are remembered.  Here an instance is
made in a homed session, its ranges are given new contents, and it is given to other ranges, in any
order and any number of times.  The nodes between the first and the last root are then what
`rootsAfter` computes: the nodes the instance was made with, in which what a range at the top holds
is replaced by its new content whenever the range gets one.

The ends of the ranges must stay with the instance for that.  `Concerns` describes the calls that
give an instance or one of its ranges something, and `Orderly` those among them that leave the ends
of ranges alone: no such end is handed over but with the instance as a whole, and the range that the
instance is given to stands neither below its roots nor among such ends.
`roots_apart_of_mark_given` is a run in which an end is handed over.
-/

namespace LiveTemplate

set_option autoImplicit false

open Forest NodeRange

variable {s s' : Session} {r : NodeRange} {contents : List Content} {i : InstanceId}
  {b : Block} {p : NodeId} {ns : List NodeId} {a : Act}

namespace Session

/-- The ranges of an instance. -/
def ownRanges (s : Session) (i : InstanceId) : List NodeRange := rangesOf (s.instanceAt i).sites

/-- The root nodes of an instance, if they can be walked. -/
def rootNodes (s : Session) (i : InstanceId) : List NodeId :=
  match (s.instanceAt i).block.roots s.forest with
  | .ok ns => ns
  | .error _ => []

/-- A call that gives a range of the instance new contents, or the instance to another range.  What
a range of the instance is given is in that range already or is no root node. -/
structure Concerns (s : Session) (i : InstanceId) (r : NodeRange) (contents : List Content) :
    Prop where
  presents : s.Presents contents
  own : r ∈ s.ownRanges i →
    ∀ n ∈ s.nodesOf contents, n ∈ s.rootNodes i → n ∈ r.content s.forest
  other : r ∉ s.ownRanges i → .block (s.instanceAt i).block ∈ contents

instance (s : Session) (i : InstanceId) (r : NodeRange) (contents : List Content) :
    Decidable (s.Concerns i r contents) :=
  decidable_of_iff (s.Presents contents ∧
      (r ∈ s.ownRanges i → ∀ n ∈ s.nodesOf contents, n ∈ s.rootNodes i → n ∈ r.content s.forest) ∧
      (r ∉ s.ownRanges i → .block (s.instanceAt i).block ∈ contents))
    ⟨fun ⟨hpresents, hown, hother⟩ => ⟨hpresents, hown, hother⟩,
      fun h => ⟨h.presents, h.own, h.other⟩⟩

/-- A call that does not take the instance apart at the ends of its ranges either. -/
structure Orderly (s : Session) (i : InstanceId) (r : NodeRange) (contents : List Content) : Prop
    extends s.Concerns i r contents where
  marks_root : ∀ n ∈ s.nodesOf contents, n ∈ marks (s.ownRanges i) → n ∈ s.rootNodes i
  outside : r ∉ s.ownRanges i → ∀ q, r.parent s.forest = .ok q →
    q ∉ s.rootNodes i ∧ ∀ m ∈ marks (s.ownRanges i), m ∈ s.forest.children q → m ∈ s.rootNodes i

instance (s : Session) (i : InstanceId) (r : NodeRange) (contents : List Content) :
    Decidable (s.Orderly i r contents) :=
  have (q : Except Fault NodeId) (P : NodeId → Prop) [DecidablePred P] :
      Decidable (∀ n, q = .ok n → P n) :=
    match q with
    | .ok n => decidable_of_iff (P n) ⟨fun h _ e => Except.ok.inj e ▸ h, fun h => h n rfl⟩
    | .error _ => .isTrue nofun
  decidable_of_iff (s.Concerns i r contents ∧
      (∀ n ∈ s.nodesOf contents, n ∈ marks (s.ownRanges i) → n ∈ s.rootNodes i) ∧
      (r ∉ s.ownRanges i → ∀ q, r.parent s.forest = .ok q → q ∉ s.rootNodes i ∧
        ∀ m ∈ marks (s.ownRanges i), m ∈ s.forest.children q → m ∈ s.rootNodes i))
    ⟨fun ⟨hconcerns, hmarks, houtside⟩ => ⟨hconcerns, hmarks, houtside⟩,
      fun h => ⟨h.toConcerns, h.marks_root, h.outside⟩⟩

/-- The instance has the block `b`, and the nodes `ns`, consecutive children of `p`, are its root
nodes. -/
structure RootsAt (s : Session) (i : InstanceId) (b : Block) (p : NodeId) (ns : List NodeId) :
    Prop where
  lt_size : i < s.instances.size
  block_eq : (s.instanceAt i).block = b
  tracked : Tracked s.forest (s.ownRanges i) b.home p ns
  ends_eq : b.ends = Block.endsOf ns

end Session

namespace Act

/-- A call on a range concerns the instance in good order; other acts do not touch it. -/
def Orderly (i : InstanceId) (s : Session) : Act → Prop
  | .place r contents => s.Orderly i r contents
  | _ => True

/-- A call on a range concerns the instance; other acts do not touch it. -/
def Concerns (i : InstanceId) (s : Session) : Act → Prop
  | .place r contents => s.Concerns i r contents
  | _ => True

instance (i : InstanceId) (s : Session) : DecidablePred (Act.Orderly i s)
  | .place r contents => inferInstanceAs (Decidable (s.Orderly i r contents))
  | .create .. | .store .. | .write .. | .handOut .. => .isTrue trivial

instance (i : InstanceId) (s : Session) : DecidablePred (Act.Concerns i s)
  | .place r contents => inferInstanceAs (Decidable (s.Concerns i r contents))
  | .create .. | .store .. | .write .. | .handOut .. => .isTrue trivial

/-- Only ranges of the instance get new contents. -/
def Within (i : InstanceId) (s : Session) : Act → Prop
  | .place r _ => r ∈ s.ownRanges i
  | _ => True

/-- The nodes `ns` behind an act: a range of the instance among them is refilled. -/
def refill (i : InstanceId) (s : Session) (ns : List NodeId) : Act → List NodeId
  | .place r contents =>
    if r ∈ s.ownRanges i then
      r.refilled (r.content (Act.after s (.place r contents)).forest) ns
    else ns
  | _ => ns

end Act

/-- The nodes `ns` behind a run. -/
def Session.rootsAfter (i : InstanceId) (s : Session) (ns : List NodeId) : List Act → List NodeId
  | [] => ns
  | a :: rest => (a.after s).rootsAfter i (a.refill i s ns) rest

/-- Refilling a range between its ends leaves the first and the last node. -/
theorem Block.endsOf_refilled {r : NodeRange} {front old back : List NodeId} (new : List NodeId) :
    Block.endsOf (front ++ r.start :: (new ++ r.stop :: back))
      = Block.endsOf (front ++ r.start :: (old ++ r.stop :: back)) := by
  refine Block.endsOf_congr ?_ ?_
  · cases front <;> rfl
  · simp [List.getLast?_append, List.getLast?_cons]

namespace Session.RootsAt

theorem roots_eq (h : s.RootsAt i b p ns) (hs : s.Homed) :
    (s.instanceAt i).block.roots s.forest = .ok ns := by
  rw [h.block_eq]
  exact Block.roots_eq_of_run hs.linked h.tracked.run h.ends_eq

theorem rootNodes_eq (h : s.RootsAt i b p ns) (hs : s.Homed) : s.rootNodes i = ns := by
  unfold rootNodes
  rw [h.roots_eq hs]

/-- Nothing but the forest has to be looked at while instances keep their blocks and parts. -/
theorem of_tracked (h : s.RootsAt i b p ns) (hsize : s.instances.size ≤ s'.instances.size)
    (hblock : (s'.instanceAt i).block = (s.instanceAt i).block)
    (hparts : (s'.instanceAt i).parts = (s.instanceAt i).parts) {p' : NodeId} {ns' : List NodeId}
    (hends : Block.endsOf ns' = Block.endsOf ns)
    (htracked : Tracked s'.forest (s.ownRanges i) b.home p' ns') : s'.RootsAt i b p' ns' where
  lt_size := Nat.lt_of_lt_of_le h.lt_size hsize
  block_eq := hblock.trans h.block_eq
  tracked := by
    unfold ownRanges
    rw [Instance.sites, hparts]
    exact htracked
  ends_eq := h.ends_eq.trans hends.symm

theorem endsOf_refilled (h : s.RootsAt i b p ns) (hs : s.Homed) (hown : r ∈ s.ownRanges i)
    (new : List NodeId) : Block.endsOf (r.refilled new ns) = Block.endsOf ns := by
  by_cases hstart : r.start ∈ ns
  · obtain ⟨before, inside, behind, hr⟩ :=
      h.tracked.stands_of_start_mem hown (h.tracked.run.subset hstart)
    obtain ⟨-, front, back, rfl⟩ := h.tracked.split_of_start_mem hs.linked hown hr hstart
    rw [refilled_append new (h.tracked.nodup hs.linked), Block.endsOf_refilled new]
  · rw [refilled_of_not_mem new hstart]

/-! ## One act -/

section Place

variable {c : Placement s.forest s'.forest}

/-- The nodes that a placement was given are those that the contents stand for. -/
theorem given_eq (hc : s.Placed s' r contents c) : s.nodesOf contents = c.given :=
  nodesOf_eq (wanted_eq_ok_iff.mp hc.wanted).1

/-- A range of the instance gets new contents. -/
theorem own (h : s.RootsAt i b p ns) (hs : s.Homed) (hcall : s.Orderly i r contents)
    (hc : s.Placed s' r contents c) (hown : r ∈ s.ownRanges i) :
    s'.RootsAt i b p (r.refilled (r.content s'.forest) ns) := by
  obtain rfl := hc.range_eq
  have hOwn : Tracked.Own (s.ownRanges i) b.home ns c :=
    { own := hown
      roots_inside := by
        intro n hn hroot
        have hmem := hcall.own hown n (given_eq hc ▸ hn) (h.rootNodes_eq hs ▸ hroot)
        rwa [c.stands.content_eq hs.linked] at hmem
      marks_root := by
        intro n hn hmark
        rw [← h.rootNodes_eq hs]
        exact hcall.marks_root n (given_eq hc ▸ hn) hmark
      home_spared := h.block_eq ▸ hs.home_spared hc h.lt_size (h.roots_eq hs)
        (.inr (h.tracked.eq_nil_of_subset_inside hs.linked hown c.stands)) }
  rw [(c.outcome.stands hs.linked c.stands).content_eq c.outcome.linked]
  exact h.of_tracked (by rw [hc.instances_eq]) (by rw [instanceAt_congr hc.instances_eq])
    (by rw [instanceAt_congr hc.instances_eq]) (h.endsOf_refilled hs hown c.shown)
    (h.tracked.own hs.linked hOwn)

/-- The instance is given to another range. -/
theorem given (h : s.RootsAt i b p ns) (hs : s.Homed) (hcall : s.Orderly i r contents)
    (hc : s.Placed s' r contents c) (hother : r ∉ s.ownRanges i) : ∃ p', s'.RootsAt i b p' ns := by
  obtain rfl := hc.range_eq
  obtain ⟨hitems, -, hends⟩ := wanted_eq_ok_iff.mp hc.wanted
  have hblock := hcall.other hother
  have hroots := h.rootNodes_eq hs
  obtain ⟨hparent, hmarks⟩ := hcall.outside hother c.parent (c.stands.parent_eq hs.linked)
  have hGiven : Tracked.Given (s.ownRanges i) b.home ns c :=
    { given := by
        obtain ⟨ns', hns', hinfix⟩ := Content.roots_infix_allItems hitems hblock
        obtain rfl : ns = ns' := Except.ok.inj ((h.roots_eq hs).symm.trans hns')
        exact hinfix
      not_ends := hends
      marks_root := by
        intro n hn hmark
        rw [← hroots]
        exact hcall.marks_root n (given_eq hc ▸ hn) hmark
      parent_not_root := hroots ▸ hparent
      others_root := hroots ▸ hmarks
      home_spared := h.block_eq ▸ hs.home_spared hc h.lt_size (h.roots_eq hs) (.inl hblock) }
  obtain ⟨p', hp'⟩ := h.tracked.given hs.linked hGiven
  exact ⟨p', h.of_tracked (by rw [hc.instances_eq]) (by rw [instanceAt_congr hc.instances_eq])
    (by rw [instanceAt_congr hc.instances_eq]) rfl hp'⟩

end Place

/-- Acts that leave the sessions alike leave the root nodes where they are. -/
theorem of_alike (h : s.RootsAt i b p ns) (halike : s.Alike s')
    (hnext : s'.forest.nextId = s.forest.nextId) : s'.RootsAt i b p ns :=
  h.of_tracked (Nat.le_of_eq halike.size.symm) (halike.block i) (halike.parts i) rfl
    (h.tracked.congr (Nat.le_of_eq hnext.symm) halike.children)

/-- So does making another instance. -/
theorem created (h : s.RootsAt i b p ns) (hs : s.Homed) {f : Forest} {parts : List Part}
    (hf : Realized s.forest f (rangesOf (PartList.sites parts))) (t : TemplateId)
    (arguments : Option Value) :
    (s.created t f s.forest.nextId parts arguments).RootsAt i b p ns := by
  have hsame := s.instanceAt_created_of_lt t f s.forest.nextId parts arguments h.lt_size
  refine h.of_tracked ?_ (by rw [hsame]) (by rw [hsame]) rfl ?_
  · rw [size_created]
    exact Nat.le_succ _
  · exact h.tracked.grown (lt_nextId_of_isFragment (h.block_eq ▸ hs.home_fragment h.lt_size))
      (Nat.le_of_lt hf.home_lt) hf.children_old
      fun q n hq hn => Nat.le_of_lt (hf.mem_new n q hn hq)

/-- One act refills the run of root nodes and may move it as a whole; it stays where it is if only
ranges of the instance get new contents. -/
theorem after (h : s.RootsAt i b p ns) (hs : s.Homed) (ha : a.Orderly i s) :
    ∃ p', (a.after s).RootsAt i b p' (a.refill i s ns) ∧ (a.Within i s → p' = p) := by
  cases a with
  | create t arguments =>
      obtain ⟨parts, f, hf, hafter⟩ := Act.after_create hs.linked t arguments
      refine ⟨p, ?_, fun _ => rfl⟩
      rw [hafter]
      exact h.created hs hf t arguments
  | place r contents =>
      by_cases hown : r ∈ s.ownRanges i
      · refine ⟨p, ?_, fun _ => rfl⟩
        rw [Act.refill, if_pos hown]
        rcases hs.after_place ha.presents with hsame | ⟨c, hc⟩
        · rw [hsame, h.tracked.refilled_content hs.linked hown]
          exact h
        · exact h.own hs ha hc hown
      · rw [Act.refill, if_neg hown]
        rcases hs.after_place ha.presents with hsame | ⟨c, hc⟩
        · rw [hsame]
          exact ⟨p, h, fun _ => rfl⟩
        · obtain ⟨p', hp'⟩ := h.given hs ha hc hown
          exact ⟨p', hp', fun hwithin => absurd hwithin hown⟩
  | store j arguments =>
      exact ⟨p, h.of_alike (Act.after_alike (a := .store j arguments) hs.linked nofun nofun).2
        (Act.nextId_after nofun nofun), fun _ => rfl⟩
  | write e name v =>
      exact ⟨p, h.of_alike (Act.after_alike (a := .write e name v) hs.linked nofun nofun).2
        (Act.nextId_after nofun nofun), fun _ => rfl⟩
  | handOut e v =>
      exact ⟨p, h.of_alike (Act.after_alike (a := .handOut e v) hs.linked nofun nofun).2
        (Act.nextId_after nofun nofun), fun _ => rfl⟩

/-! ## Runs -/

end Session.RootsAt

/-- Orderly acts are sound. -/
theorem Act.Orderly.sound (ha : a.Orderly i s) : a.Sound s := by
  cases a with
  | place r contents => exact ha.presents
  | create t arguments => trivial
  | store j arguments => trivial
  | write e name v => trivial
  | handOut e v => trivial

/-- A run does to the root nodes what its acts do one after another. -/
theorem Session.RootsAt.afterActs {acts : List Act} (h : s.RootsAt i b p ns) (hs : s.Homed)
    (hacts : Throughout (Act.Orderly i) s acts) :
    ∃ p', (s.afterActs acts).RootsAt i b p' (s.rootsAfter i ns acts) ∧
      (Throughout (Act.Within i) s acts → p' = p) ∧ (s.afterActs acts).Homed := by
  induction acts generalizing s p ns with
  | nil => exact ⟨p, h, fun _ => rfl, hs⟩
  | cons a acts ih =>
      obtain ⟨p₁, hfirst, hstay⟩ := h.after hs hacts.1
      obtain ⟨p₂, hrest, hstays, hhomed⟩ := ih hfirst (hs.after hacts.1.sound) hacts.2
      exact ⟨p₂, hrest, fun hwithin => (hstays hwithin.2).trans (hstay hwithin.1), hhomed⟩

/-- A new instance stands in its fragment, and its ranges are empty. -/
theorem tracked_of_realized {f f' : Forest} {ranges : List NodeRange}
    (hf : Realized f f' ranges) :
    Tracked f' ranges f.nextId f.nextId (f'.children f.nextId) where
  run := List.infix_refl _
  marks_live := by
    intro m hm
    obtain ⟨r, hr, hend⟩ := mem_marks.mp hm
    obtain ⟨-, -, -, q, front, back, -, hq⟩ := hf.fresh r hr
    refine hf.linked.lt_nextId (p := q) ?_
    rcases hend with rfl | rfl <;> simp [hq]
  marks_root := fun _ _ hchild => hchild
  paired := by
    intro r hr q hends
    obtain ⟨-, -, -, q', front, back, -, hq'⟩ := hf.fresh r hr
    obtain rfl : q = q' := by
      rcases hends with hstart | hstop
      · exact hf.linked.parent_unique hstart (by simp [hq'])
      · exact hf.linked.parent_unique hstop (by simp [hq'])
    have hpair : [r.start, r.stop] <:+: f'.children q := ⟨front, back, by simp [hq']⟩
    have hmarked := hpair.filter (· ∈ marks ranges)
    rwa [List.filter_eq_self.mpr (by simp [start_mem_marks hr, stop_mem_marks hr])] at hmarked
  at_home := (if_pos rfl).symm

theorem rootsAt_created {f : Forest} {parts : List Part}
    (hf : Realized s.forest f (rangesOf (PartList.sites parts))) (t : TemplateId)
    (arguments : Option Value) :
    (s.created t f s.forest.nextId parts arguments).RootsAt s.instances.size
      (Block.ofFragment s.instances.size s.forest.nextId f) s.forest.nextId
      (f.children s.forest.nextId) where
  lt_size := by
    rw [Session.size_created]
    exact Nat.lt_succ_self _
  block_eq := by rw [Session.instanceAt_created_self]
  tracked := by
    unfold Session.ownRanges
    rw [Session.instanceAt_created_self]
    exact tracked_of_realized hf
  ends_eq := Block.ends_ofFragment _ _ _

/-- The root nodes of an instance along an orderly run: what is remembered of them never changes,
it is always the first and the last of what walking meets, and walking meets the run that the calls
have made of the first one.  The run is all of the fragment of the instance whenever it stands in
there, and it stands in there as long as only ranges of the instance get new contents. -/
theorem Session.Homed.roots_followed (hs : s.Homed) (t : TemplateId) (arguments : Option Value)
    {acts : List Act}
    (hacts : Throughout (Act.Orderly s.instances.size) (Act.after s (.create t arguments)) acts) :
    let i := s.instances.size
    let made := Act.after s (.create t arguments)
    let later := made.afterActs acts
    let block := (made.instanceAt i).block
    let roots := made.rootsAfter i (made.forest.children block.home) acts
    (later.instanceAt i).block = block ∧
      block.roots later.forest = .ok roots ∧
      block.ends = Block.endsOf roots ∧
      (∃ p, roots <:+: later.forest.children p) ∧
      (roots ⊆ later.forest.children block.home → later.forest.children block.home = roots) ∧
      (Throughout (Act.Within i) made acts → later.forest.children block.home = roots) := by
  intro i made later block roots
  obtain ⟨parts, f, hf, hmade⟩ := Act.after_create hs.linked t arguments
  have hblock : block = Block.ofFragment s.instances.size s.forest.nextId f := by
    show (made.instanceAt s.instances.size).block = _
    rw [show made = _ from hmade, instanceAt_created_self]
  have hroots : roots = made.rootsAfter i (f.children s.forest.nextId) acts := by
    show made.rootsAfter i (made.forest.children block.home) acts = _
    rw [hblock, show made = _ from hmade]
    rfl
  have hfirst : made.RootsAt i block s.forest.nextId (f.children s.forest.nextId) := by
    rw [hblock, show made = _ from hmade]
    exact rootsAt_created hf t arguments
  obtain ⟨p, hlast, hstays, hhomed⟩ :=
    hfirst.afterActs (hs.after (a := .create t arguments) trivial) hacts
  rw [← hroots] at hlast
  have hhome := hlast.tracked.at_home
  refine ⟨hlast.block_eq, hlast.block_eq ▸ hlast.roots_eq hhomed, hlast.ends_eq,
    ⟨p, hlast.tracked.run⟩, fun hin => ?_, fun hwithin => ?_⟩
  · by_cases hp : p = block.home
    · exact hhome.trans (if_pos hp)
    · rw [if_neg hp] at hhome
      rw [hhome] at hin
      exact hhome.trans (List.subset_nil.mp hin).symm
  · refine hhome.trans (if_pos ?_)
    rw [hstays hwithin, hblock]
    rfl

/-- The templates of a list around a range; of a range between two elements of which the second is
around a range too; of an element beside one with a range two levels below it; and of a range
between two elements. -/
def spanTemplates : Session :=
  let hole := Tree.element { name := "span", attributes := [("data-dtpp-nodes", "")] } []
  let item := Tree.element { name := "i" } [hole]
  .ofTemplates
    [{ placeholders := 1, dialect := .html, markers := {}
       markup := "<ul><span data-dtpp-nodes=\"\"></span></ul>"
       trees := [.element { name := "ul" } [hole]] },
     { placeholders := 2, dialect := .html, markers := {}
       markup :=
         "<b></b><span data-dtpp-nodes=\"\"></span><i><span data-dtpp-nodes=\"\"></span></i>"
       trees := [.element { name := "b" } [], hole, item] },
     { placeholders := 1, dialect := .html, markers := {}
       markup := "<b></b><u><i><span data-dtpp-nodes=\"\"></span></i></u>"
       trees := [.element { name := "b" } [], .element { name := "u" } [item]] },
     { placeholders := 1, dialect := .html, markers := {}
       markup := "<s></s><span data-dtpp-nodes=\"\"></span><em></em>"
       trees := [.element { name := "s" } [], hole, .element { name := "em" } []] }]

/-- A list has been made of its template. -/
def listed : Session := Act.after spanTemplates (.create 0 none)

/-- An instance of another template has been made beside the list. -/
def listedBeside (t : TemplateId) : Session := Act.after listed (.create t none)

theorem homed_listed : listed.Homed :=
  (Session.Homed.of_blank (Session.blank_ofTemplates _)).after (a := .create 0 none) trivial

/-- The range between the two elements gets a text, the list gets the instance, and the range gets
another text in front of the first one. -/
def grownTwice : List Act :=
  [.place ⟨27, 28⟩ [.text "x"], .place ⟨20, 21⟩ [.block ⟨1, 22, some (23, 25)⟩],
    .place ⟨27, 28⟩ [.text "y", .text "x"]]

/-- The range keeps its place in the run when the instance moves, and grows there too. -/
theorem roots_followed_grownTwice :
    (listed.Homed ∧ Throughout (Act.Orderly 1) (listedBeside 1) grownTwice) ∧
      ((listedBeside 1).instanceAt 1).block.roots ((listedBeside 1).afterActs grownTwice).forest
        = .ok ((listedBeside 1).rootsAfter 1 ((listedBeside 1).forest.children 22) grownTwice) := by
  have hacts : Throughout (Act.Orderly 1) (listedBeside 1) grownTwice := by decide +kernel
  exact ⟨⟨homed_listed, hacts⟩, (homed_listed.roots_followed 1 none hacts).2.1⟩

example : (listedBeside 1).rootsAfter 1 [23, 27, 28, 25] grownTwice = [23, 27, 32, 31, 28, 25] := by
  decide +kernel

/-- The list gets the instance between the ends of the second range of the instance, and then this
range is emptied. -/
def markGiven : List Act :=
  [.place ⟨20, 21⟩ [.node 29, .block ⟨1, 22, some (23, 25)⟩, .node 30], .place ⟨29, 30⟩ []]

/-- An end of a range that is handed over takes the range with it: here the range comes to hold the
instance it belongs to, and emptying it takes the root nodes apart. -/
theorem roots_apart_of_mark_given :
    (listed.Homed ∧ Throughout (Act.Concerns 1) (listedBeside 1) markGiven) ∧
      ((listedBeside 1).instanceAt 1).block.roots ((listedBeside 1).afterActs markGiven).forest
        = .error .rootsApart := by
  exact ⟨⟨homed_listed, by decide +kernel⟩, by decide +kernel⟩

/-- The list gets the instance and, beside it, the element around the range of the instance.  That
range gets the roots of a third instance, whose range gets the instance.  Then the range of the
instance is emptied. -/
def givenAmongMarks : List Act :=
  [.create 3 none, .place ⟨20, 21⟩ [.block ⟨1, 22, some (23, 24)⟩, .node 25],
    .place ⟨27, 28⟩ [.node 30, .node 33, .node 34, .node 32],
    .place ⟨33, 34⟩ [.block ⟨1, 22, some (23, 24)⟩], .place ⟨27, 28⟩ []]

/-- No end is handed over here, but the instance comes to stand between two ends of its own. -/
theorem roots_apart_of_given_among_marks :
    (listed.Homed ∧ Throughout (Act.Concerns 1) (listedBeside 2) givenAmongMarks) ∧
      ((listedBeside 2).instanceAt 1).block.roots
          ((listedBeside 2).afterActs givenAmongMarks).forest
        = .error .rootsApart := by
  exact ⟨⟨homed_listed, by decide +kernel⟩, by decide +kernel⟩

end LiveTemplate
