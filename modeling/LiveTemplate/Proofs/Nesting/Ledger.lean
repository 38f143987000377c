import LiveTemplate.Proofs.Nesting.Pooled

/-!
# A ledger of what ranges hold

When a pool of instances is placed in ranges of other instances, one can keep a ledger of what
every range holds: a list of strings and instances.  A call sets the list of its own range, and the
instances that are given disappear from all other lists.  No tree is needed for that.

`refining_of_posts` says that the forest follows the ledger, throughout every run: each range holds
the nodes of what the ledger lists for it, in order; an instance that is listed nowhere is at home;
and no call fails.
-/

namespace LiveTemplate

set_option autoImplicit false

open Forest NodeRange

/-! ## Ledgers -/

/-- One thing that a range holds: a string, or an instance. -/
inductive Posting
  | text (t : String)
  | placed (i : InstanceId)
  deriving DecidableEq, Repr

/-- The instance that is placed. -/
def Posting.instance? : Posting → Option InstanceId
  | .text _ => none
  | .placed i => some i

/-- A content as it is entered into the ledger. -/
def Content.posting? : Content → Option Posting
  | .text t => some (.text t)
  | .block b => some (.placed b.owner)
  | _ => none

/-- What every range holds. -/
abbrev Ledger := NodeRange → List Posting

namespace Ledger

/-- Nothing is placed anywhere. -/
def blank : Ledger := fun _ => []

/-- A posting stays where it is when others are given to another range. -/
def stays (given : List Posting) : Posting → Bool
  | .text _ => true
  | .placed i => .placed i ∉ given

/-- A range is given postings: instances leave the ranges that they were in. -/
def post (l : Ledger) (r : NodeRange) (given : List Posting) : Ledger := fun r' =>
  if r' = r then given else (l r').filter (stays given)

/-- The ledger behind an act. -/
def after (l : Ledger) : Act → Ledger
  | .place r contents => l.post r (contents.filterMap Content.posting?)
  | _ => l

/-- No instance is listed twice. -/
structure Sound (l : Ledger) : Prop where
  once : ∀ r, ((l r).filterMap Posting.instance?).Nodup
  one_range : ∀ {i : InstanceId} {r r' : NodeRange}, .placed i ∈ l r → .placed i ∈ l r' → r = r'

variable {l : Ledger} {r r' : NodeRange} {given : List Posting}

@[simp] theorem post_self : l.post r given r = given := if_pos rfl

theorem post_of_ne (h : r' ≠ r) : l.post r given r' = (l r').filter (stays given) := if_neg h

theorem sound_blank : blank.Sound := ⟨fun _ => List.nodup_nil, nofun⟩

/-- Ledgers stay sound if no instance is given twice. -/
theorem Sound.post (hl : l.Sound) (hgiven : (given.filterMap Posting.instance?).Nodup) :
    (l.post r given).Sound where
  once := by
    intro r'
    by_cases hr : r' = r
    · rw [hr, post_self]
      exact hgiven
    · rw [post_of_ne hr]
      exact (hl.once r').sublist (List.filter_sublist.filterMap _)
  one_range := by
    intro i r₁ r₂ h₁ h₂
    have hother : ∀ {r'}, r' ≠ r → .placed i ∈ l.post r given r' →
        .placed i ∈ l r' ∧ .placed i ∉ given := by
      intro r' hr hmem
      rw [post_of_ne hr, List.mem_filter] at hmem
      exact ⟨hmem.1, of_decide_eq_true hmem.2⟩
    by_cases hr₁ : r₁ = r
    · by_cases hr₂ : r₂ = r
      · rw [hr₁, hr₂]
      · rw [hr₁, post_self] at h₁
        exact absurd h₁ (hother hr₂ h₂).2
    · by_cases hr₂ : r₂ = r
      · rw [hr₂, post_self] at h₂
        exact absurd h₂ (hother hr₁ h₁).2
      · exact hl.one_range (hother hr₁ h₁).1 (hother hr₂ h₂).1

end Ledger

/-! ## What the ledger says about the session -/

/-- The nodes that a posting stands for: a text of these characters, or the roots of the
instance. -/
def Session.ShowsAs (s : Session) : Posting → List NodeId → Prop
  | .text t, ns => ∃ n, ns = [n] ∧ s.forest.text? n = some t
  | .placed i, ns => i < s.instances.size ∧ (s.instanceAt i).block.roots s.forest = .ok ns

/-- The session follows the ledger. -/
structure Session.Follows (s : Session) (pool : InstanceId → Prop) (l : Ledger) : Prop where
  /-- Every range holds what is listed for it, in order. -/
  holds : ∀ r, s.HasRange r → ∃ pieces, List.Forall₂ s.ShowsAs (l r) pieces ∧
    r.items s.forest = .ok pieces.flatten
  /-- An instance of the pool that is not listed is at home. -/
  at_home : ∀ i, i < s.instances.size → pool i → (∀ r, .placed i ∉ l r) →
    (s.instanceAt i).block.roots s.forest
      = .ok (s.forest.children (s.instanceAt i).block.home)
  /-- One that is listed has left home. -/
  away : ∀ i r, .placed i ∈ l r → s.forest.children (s.instanceAt i).block.home = []
  /-- The roots of an instance of the pool are in a range outside the pool only where it is
  listed. -/
  nowhere_else : ∀ i j r roots held x, i < s.instances.size → pool i →
    j < s.instances.size → ¬ pool j → .range r ∈ (s.instanceAt j).sites →
    (s.instanceAt i).block.roots s.forest = .ok roots → r.items s.forest = .ok held →
    x ∈ roots → x ∈ held → .placed i ∈ l r
  sound : l.Sound

/-- The session follows the ledger throughout a run, and no call fails. -/
def Refining (pool : InstanceId → Prop) (s : Session) (l : Ledger) : List Act → Prop
  | [] => s.Follows pool l
  | a :: rest => s.Follows pool l ∧
      (∀ r contents, a = .place r contents → ∃ s', a.run s = .ok () s') ∧
      Refining pool (a.after s) (l.after a) rest

/-! ## The ledger and the layout -/

section Lists

variable {α β : Type} {R S : α → β → Prop} {as : List α} {bs : List β}

theorem forall₂_imp_mem (h : List.Forall₂ R as bs) (himp : ∀ a b, b ∈ bs → R a b → S a b) :
    List.Forall₂ S as bs := by
  induction h with
  | nil => exact .nil
  | @cons a b as bs hab _ ih =>
      exact .cons (himp a b (by simp) hab) (ih fun a b hb => himp a b (List.mem_cons_of_mem _ hb))

/-- Related lists stay related if related entries are left out together. -/
theorem forall₂_filter {keep : α → Bool} {keep' : β → Bool} (h : List.Forall₂ R as bs)
    (hkeep : ∀ a b, b ∈ bs → R a b → keep a = keep' b ∧ S a b) :
    List.Forall₂ S (as.filter keep) (bs.filter keep') := by
  induction h with
  | nil => exact .nil
  | @cons a b as bs hab _ ih =>
      have hrest := ih fun a b hb => hkeep a b (List.mem_cons_of_mem _ hb)
      obtain ⟨hsame, hS⟩ := hkeep a b (by simp) hab
      rw [List.filter_cons, List.filter_cons, hsame]
      cases keep' b
      · exact hrest
      · exact .cons hS hrest

end Lists

/-- A posting is that of an entry. -/
def Session.Recorded (s : Session) : Posting → Entry → Prop
  | .text t, .text n => s.forest.text? n = some t
  | .placed i, .nest home => i < s.instances.size ∧ (s.instanceAt i).block.home = home
  | _, _ => False

/-- The ledger lists what the layout holds. -/
structure Booked (s : Session) (L : Layout) (l : Ledger) : Prop where
  listed : ∀ {r : NodeRange}, s.HasRange r → List.Forall₂ s.Recorded (l r) (L.held r.start)
  unlisted : ∀ {r : NodeRange}, ¬ s.HasRange r → l r = []

namespace Booked

variable {pool : InstanceId → Prop} {s s' : Session} {L : Layout} {l : Ledger} {r : NodeRange}
  {contents : List Content} {maker : NodeId → InstanceId} {p : Posting} {e : Entry}

/-- A posting of an instance is recorded as that instance. -/
theorem nest_mem_iff {postings : List Posting} {entries : List Entry}
    (hunique : ∀ {i j : InstanceId}, i < s.instances.size → j < s.instances.size →
      (s.instanceAt i).block.home = (s.instanceAt j).block.home → i = j)
    (hrecorded : List.Forall₂ s.Recorded postings entries) {i : InstanceId}
    (hi : i < s.instances.size) :
    .nest (s.instanceAt i).block.home ∈ entries ↔ .placed i ∈ postings := by
  constructor
  · intro hmem
    obtain ⟨p, hp, hshow⟩ := forall₂_exists_left hrecorded hmem
    cases p with
    | text t => exact hshow.elim
    | placed j =>
        obtain ⟨hj, hhome⟩ := hshow
        rwa [← hunique hj hi hhome]
  · intro hmem
    obtain ⟨e, he, hshow⟩ := forall₂_exists_right hrecorded hmem
    cases e with
    | text n => exact hshow.elim
    | nest home =>
        obtain ⟨-, rfl⟩ := hshow
        exact he

/-- Postings stay recorded when texts keep their characters and instances their fragments. -/
theorem recorded_of_le (hsize : s.instances.size ≤ s'.instances.size)
    (hblock : ∀ i, i < s.instances.size → (s'.instanceAt i).block = (s.instanceAt i).block)
    (htext : ∀ n, e = .text n → s'.forest.text? n = s.forest.text? n) (h : s.Recorded p e) :
    s'.Recorded p e := by
  cases p with
  | text t =>
      cases e with
      | text n => exact (htext n rfl).trans h
      | nest home => exact h.elim
  | placed i =>
      cases e with
      | text n => exact h.elim
      | nest home =>
          obtain ⟨hi, hhome⟩ := h
          exact ⟨Nat.lt_of_lt_of_le hi hsize, (congrArg Block.home (hblock i hi)).trans hhome⟩

/-- What is listed is in the range. -/
theorem mem_held_iff (h : Nested s L) (hb : Booked s L l) {i : InstanceId}
    (hi : i < s.instances.size) (hr : s.HasRange r) :
    .nest (s.instanceAt i).block.home ∈ L.held r.start ↔ .placed i ∈ l r :=
  nest_mem_iff h.home_unique (hb.listed hr) hi

/-- Only ranges are listed. -/
theorem hasRange_of_mem (hb : Booked s L l) (hp : p ∈ l r) : s.HasRange r := by
  by_contra hnot
  rw [hb.unlisted hnot] at hp
  exact nomatch hp

/-- What is listed is an instance of the session. -/
theorem lt_size_of_mem (hb : Booked s L l) {i : InstanceId} (hi : .placed i ∈ l r) :
    i < s.instances.size := by
  obtain ⟨e, -, hshow⟩ := forall₂_exists_right (hb.listed (hb.hasRange_of_mem hi)) hi
  cases e with
  | text n => exact hshow.elim
  | nest home => exact hshow.1

/-- Where the ledger lists what the layout holds, the session follows the ledger. -/
theorem follows (h : Nested s L) (hp : Pooled pool s L maker) (hb : Booked s L l)
    (hl : l.Sound) : s.Follows pool l where
  holds := by
    intro r hr
    refine ⟨(L.held r.start).map (Entry.nodes L.span), ?_, h.items_eq hr⟩
    rw [List.forall₂_map_right_iff]
    refine (hb.listed hr).imp fun p e hrecorded => ?_
    cases p with
    | text t =>
        cases e with
        | text n => exact ⟨n, rfl, hrecorded⟩
        | nest home => exact hrecorded.elim
    | placed i =>
        cases e with
        | text n => exact hrecorded.elim
        | nest home =>
            obtain ⟨hi, rfl⟩ := hrecorded
            exact ⟨hi, h.roots_eq ⟨i, hi, rfl⟩⟩
  at_home := by
    intro i hi _ hnone
    have hnot : ¬ L.Held (s.instanceAt i).block.home := by
      rintro ⟨m, hm⟩
      obtain ⟨r, hr, rfl⟩ := h.held_range (List.ne_nil_of_mem hm)
      exact hnone r ((hb.mem_held_iff h hi hr).mp hm)
    rw [h.roots_eq ⟨i, hi, rfl⟩, h.lists.of_not_held hnot]
  away := by
    intro i r hi
    have hlisted := (hb.mem_held_iff h (hb.lt_size_of_mem hi) (hb.hasRange_of_mem hi)).mpr hi
    exact h.lists.of_held ⟨_, hlisted⟩
  nowhere_else := by
    intro i j r roots held x hi hpi hj hpj hr hroots hheld hx hxheld
    have hrange : s.HasRange r := ⟨j, hj, hr⟩
    rw [h.roots_eq ⟨i, hi, rfl⟩, Except.ok.injEq] at hroots
    rw [h.items_eq hrange, Except.ok.injEq] at hheld
    subst hroots hheld
    have hhome : pool (maker (s.instanceAt i).block.home) := by rwa [hp.home hi]
    rcases Layout.mem_gap.mp hxheld with htext | ⟨home, hnest, hspan⟩
    · rcases hp.origin h hhome hx with hskeleton | ⟨q, hq, htext'⟩
      · exact absurd hskeleton (h.coherent.text_not_skeleton htext)
      · have hsame := hp.skeleton hq
        rw [h.coherent.text_once htext' htext, hp.range hj hr, hp.home hi] at hsame
        exact absurd (hsame ▸ hpi) hpj
    · obtain ⟨k, hk, rfl⟩ := h.held_home hnest
      by_cases hik : i = k
      · subst hik
        exact (hb.mem_held_iff h hi hrange).mp hnest
      · have hpk := (hp.holds hnest).1
        rw [hp.home hk] at hpk
        exact absurd hspan (hp.block_disjoint h hi hk hpi hpk hik hx)
  sound := hl

/-! ## What acts preserve -/

/-- Where nothing is held nothing is booked. -/
theorem of_blank :
    Booked s ⟨s.forest.children, fun _ => [], s.forest.children⟩ Ledger.blank where
  listed := fun _ => .nil
  unlisted := fun _ => rfl

theorem of_alike (hb : Booked s L l) (hs : s.Alike s') : Booked s' L l where
  listed := fun hr => (hb.listed (hs.hasRange_iff.mp hr)).imp fun _ _ => recorded_of_le
    (Nat.le_of_eq hs.size.symm) (fun i _ => hs.block i) (fun n _ => hs.text? n)
  unlisted := fun hr => hb.unlisted fun hold => hr (hs.hasRange_iff.mpr hold)

/-- A new instance has empty ranges. -/
theorem create {f : Forest} {parts : List Part} (h : Nested s L) (hb : Booked s L l)
    (hf : Realized s.forest f (rangesOf (PartList.sites parts))) (t : TemplateId)
    (arguments : Option Value) :
    Booked (s.created t f s.forest.nextId parts arguments)
      (L.grow s.forest.nextId f.children) l := by
  have hother : ∀ i, i < s.instances.size →
      (s.created t f s.forest.nextId parts arguments).instanceAt i = s.instanceAt i :=
    fun i hi => Session.instanceAt_created_of_lt s t f s.forest.nextId parts arguments hi
  constructor
  · intro r hr
    rw [Nested.held_grow]
    rcases Nested.hasRange_created hr with hold | hnew
    · refine forall₂_imp_mem (hb.listed hold) fun p e he hrecorded => ?_
      refine recorded_of_le ?_ (fun i hi => by rw [hother i hi]) (fun n hn => ?_) hrecorded
      · rw [Session.size_created]
        exact Nat.le_succ _
      · subst hn
        exact Nested.text?_old hf (h.text_lt he)
    · have hfresh := (hf.fresh r hnew).1
      rw [h.held_eq_nil (Nat.le_of_lt hfresh), hb.unlisted fun hold =>
        absurd (h.range_lt hold).1 (Nat.not_lt.mpr (Nat.le_of_lt hfresh))]
      exact .nil
  · rintro r hr
    apply hb.unlisted
    rintro ⟨i, hi, hmem⟩
    refine hr ⟨i, ?_, ?_⟩
    · rw [Session.size_created]
      exact Nat.lt_succ_of_lt hi
    · rwa [hother i hi]

/-- A posting of given contents is recorded as the entry that shows it. -/
theorem recorded_given {f : Forest} {entries : List Entry} (h : Nested s L)
    (hposts : s.Posts pool (.place r contents)) (hshows : List.Forall₂ (Shows f) contents entries) :
    List.Forall₂ ({ s with forest := f }.remember r
        (contents.filterMap Content.block?)).Recorded
      (contents.filterMap Content.posting?) entries := by
  obtain ⟨hoffers, hnone⟩ := Pooled.offers hposts
  generalize hblocks : contents.filterMap Content.block? = blocks
  clear hblocks hposts
  induction hshows with
  | nil => exact .nil
  | @cons c e contents entries hshow _ ih =>
      have hrest := ih (fun c hc => hoffers c (List.mem_cons_of_mem _ hc))
        fun fault hc => hnone fault (List.mem_cons_of_mem _ hc)
      rcases hoffers c (by simp) with ⟨t, rfl⟩ | ⟨i, hi, rfl⟩ | ⟨fault, rfl⟩
      · cases e with
        | text n => exact .cons hshow hrest
        | nest home => exact hshow.elim
      · cases e with
        | text n => exact hshow.elim
        | nest home =>
            show List.Forall₂ _ (Posting.placed (s.instanceAt i).block.owner :: _) _
            rw [h.block_owner hi]
            exact .cons ⟨hi, hshow⟩ hrest
      · exact absurd (by simp) (hnone fault)

/-- What a call is given is booked, and crossed out everywhere else. -/
theorem place {f : Forest} {entries : List Entry} (h : Nested s L) (hb : Booked s L l)
    (hposts : s.Posts pool (.place r contents)) (hshows : List.Forall₂ (Shows f) contents entries)
    (hplaceable : L.Placeable r.start entries)
    (hkind : ∀ n, n < s.forest.nextId → f.kind? n = s.forest.kind? n) :
    Booked ({ s with forest := f }.remember r (contents.filterMap Content.block?))
      (L.place r.start entries) (l.post r (contents.filterMap Content.posting?)) where
  listed := by
    intro r' hr'
    have hgiven := recorded_given h hposts hshows
    let s' := { s with forest := f }.remember r (contents.filterMap Content.block?)
    by_cases hr : r' = r
    · rw [hr, Ledger.post_self, Layout.held_place_start]
      exact hgiven
    · have hstart : r'.start ≠ r.start := fun heq =>
        hr ((h.range_apart hr' (Pooled.hasRange hposts)).2 heq)
      rw [Ledger.post_of_ne hr, Layout.held_place_of_ne hstart]
      refine forall₂_filter (hb.listed hr') fun p e he hrecorded => ⟨?_, ?_⟩
      · cases p with
        | text t =>
            cases e with
            | nest home => exact hrecorded.elim
            | text n =>
                have hout : .text n ∉ entries := fun hin => hstart (hplaceable.text_own hin he)
                exact (decide_eq_true hout).symm
        | placed i =>
            cases e with
            | text n => exact hrecorded.elim
            | nest home =>
                obtain ⟨hi, rfl⟩ := hrecorded
                have hunique : ∀ {i j : InstanceId}, i < s'.instances.size →
                    j < s'.instances.size →
                    (s'.instanceAt i).block.home = (s'.instanceAt j).block.home → i = j :=
                  h.home_unique
                have hiff : .nest (s.instanceAt i).block.home ∈ entries
                    ↔ .placed i ∈ contents.filterMap Content.posting? :=
                  nest_mem_iff hunique hgiven hi
                exact decide_eq_decide.mpr (not_congr hiff.symm)
      · refine recorded_of_le (s := s) (Nat.le_refl _) (fun _ _ => rfl) (fun n hn => ?_)
          hrecorded
        subst hn
        exact text?_congr (hkind n (h.text_lt he))
  unlisted := by
    intro r' hr'
    have hr : r' ≠ r := by
      rintro rfl
      exact hr' (Pooled.hasRange hposts)
    rw [Ledger.post_of_ne hr, hb.unlisted hr']
    rfl

end Booked

/-! ## Runs -/

section Runs

variable {pool : InstanceId → Prop} {s : Session} {L : Layout} {l : Ledger}
  {maker : NodeId → InstanceId} {a : Act}

/-- Instances that are given once are entered once. -/
theorem nodup_postings {r : NodeRange} {contents : List Content} (h : Nested s L)
    (hposts : s.Posts pool (.place r contents)) :
    ((contents.filterMap Content.posting?).filterMap Posting.instance?).Nodup := by
  have howners : (contents.filterMap Content.posting?).filterMap Posting.instance?
      = (contents.filterMap Content.block?).map (·.owner) := by
    rw [List.filterMap_filterMap, List.map_filterMap]
    refine List.filterMap_congr fun c _ => ?_
    cases c <;> rfl
  rw [howners]
  refine List.Nodup.map_on (fun b hb b' hb' howner => ?_) hposts.choose_spec.2.2.2
  have hoffers := (Pooled.offers hposts).1
  obtain ⟨i, hi, rfl⟩ := Nested.offers_block hoffers (Content.mem_blocks.mp hb)
  obtain ⟨j, hj, rfl⟩ := Nested.offers_block hoffers (Content.mem_blocks.mp hb')
  rw [h.block_owner hi, h.block_owner hj] at howner
  rw [howner]

/-- An act of the pool succeeds if it is a call, and leaves a session that follows the ledger
again. -/
theorem posts_step (h : Nested s L) (hp : Pooled pool s L maker) (hb : Booked s L l)
    (hl : l.Sound) (hposts : s.Posts pool a) :
    (∀ r contents, a = .place r contents → ∃ s', a.run s = .ok () s') ∧
      ∃ L' maker', Nested (a.after s) L' ∧ Pooled pool (a.after s) L' maker' ∧
        Booked (a.after s) L' (l.after a) ∧ (l.after a).Sound := by
  by_cases hplace : ∃ r contents, a = .place r contents
  · obtain ⟨r, contents, rfl⟩ := hplace
    obtain ⟨f, entries, hrun, hshows, hplaceable, hkind, hnested⟩ :=
      h.call (hp.accepts h hposts) (hp.spares h hposts)
    refine ⟨fun _ _ _ => ⟨_, hrun⟩, L.place r.start entries, maker, ?_⟩
    rw [show Act.after s (.place r contents) = _ from Live.after_of_ok hrun]
    exact ⟨hnested, hp.place hposts hshows, hb.place h hposts hshows hplaceable hkind,
      hl.post (nodup_postings h hposts)⟩
  · have hnot : ∀ r contents, a ≠ .place r contents := fun r contents heq =>
      hplace ⟨r, contents, heq⟩
    have hledger : l.after a = l := by
      cases a with
      | place r contents => exact absurd rfl (hnot r contents)
      | create t arguments => rfl
      | store i arguments => rfl
      | write e name v => rfl
      | handOut e v => rfl
    refine ⟨fun r contents heq => absurd heq (hnot r contents), ?_⟩
    rw [hledger]
    by_cases hcreate : ∃ t arguments, a = .create t arguments
    · obtain ⟨t, arguments, rfl⟩ := hcreate
      obtain ⟨parts, f, hf, hafter⟩ := Act.after_create h.linked t arguments
      rw [hafter]
      exact ⟨_, _, h.create hf t arguments, hp.create h hf t arguments,
        hb.create h hf t arguments, hl⟩
    · obtain ⟨hlinked, halike⟩ := Act.after_alike h.linked
        (fun t arguments heq => hcreate ⟨t, arguments, heq⟩) hnot
      exact ⟨L, maker, h.of_alike hlinked halike, hp.of_alike halike, hb.of_alike halike, hl⟩

/-- In every run in which the instances of a pool are placed in ranges of the other instances, and
all ranges are given strings besides, the session follows the ledger at every moment, and no call
fails. -/
theorem refining_of_posts {acts : List Act} (hs : s.Blank)
    (hposts : Throughout (Session.Posts pool) s acts) :
    Refining pool s Ledger.blank acts := by
  have hrun : ∀ (acts : List Act) (s : Session) (L : Layout) (l : Ledger)
      (maker : NodeId → InstanceId), Nested s L → Pooled pool s L maker → Booked s L l →
      l.Sound → Throughout (Session.Posts pool) s acts → Refining pool s l acts := by
    intro acts
    induction acts with
    | nil => exact fun s L l maker h hp hb hl _ => hb.follows h hp hl
    | cons a rest ih =>
        intro s L l maker h hp hb hl hposts
        obtain ⟨hruns, L', maker', h', hp', hb', hl'⟩ := posts_step h hp hb hl hposts.1
        exact ⟨hb.follows h hp hl, hruns, ih _ L' _ maker' h' hp' hb' hl' hposts.2⟩
  exact hrun acts s _ _ _ (nested_of_blank hs) (.of_blank hs) .of_blank Ledger.sound_blank hposts

end Runs

/-- The templates of a list around a range, and of an item that is nothing but a range. -/
def poolTemplates : Session :=
  let hole := Tree.element { name := "span", attributes := [("data-dtpp-nodes", "")] } []
  .ofTemplates
    [{ placeholders := 1, dialect := .html, markers := {}
       markup := "<ul><span data-dtpp-nodes=\"\"></span></ul>"
       trees := [.element { name := "ul" } [hole]] },
     { placeholders := 1, dialect := .html, markers := {}
       markup := "<span data-dtpp-nodes=\"\"></span>", trees := [hole] }]

/-- Of two lists the first is given an item, the item is filled, the second list takes it over, and
then the first is given something else. -/
def takeover : List Act :=
  let item : Block := ⟨2, 15, some (17, 18)⟩
  [.create 0 none, .create 0 none, .create 1 none, .place ⟨8, 9⟩ [.text "a", .block item],
    .place ⟨17, 18⟩ [.text "x", .text "y"], .place ⟨13, 14⟩ [.block item],
    .place ⟨8, 9⟩ [.text "b"]]

/-- The first list still remembers the item when it is given something else, to no effect. -/
theorem refining_of_posts_takeover :
    (poolTemplates.Blank ∧ Throughout (Session.Posts (· = 2)) poolTemplates takeover) ∧
      Refining (· = 2) poolTemplates Ledger.blank takeover := by
  have hblank : poolTemplates.Blank := Session.blank_ofTemplates _
  have hposts : Throughout (Session.Posts (· = 2)) poolTemplates takeover := by
    refine ⟨trivial, trivial, trivial,
      ⟨0, by decide +kernel, by decide +kernel, ?_, by decide +kernel⟩,
      ⟨2, by decide +kernel, by decide +kernel, ?_, by decide +kernel⟩,
      ⟨1, by decide +kernel, by decide +kernel, ?_, by decide +kernel⟩,
      ⟨0, by decide +kernel, by decide +kernel, ?_, by decide +kernel⟩, trivial⟩
    · intro c hc
      rcases List.mem_pair.mp hc with rfl | rfl
      · exact .inl ⟨_, rfl⟩
      · exact .inr ⟨2, by decide +kernel⟩
    · intro c hc
      rcases List.mem_pair.mp hc with rfl | rfl
      · exact .inl ⟨_, rfl⟩
      · exact .inl ⟨_, rfl⟩
    · intro c hc
      obtain rfl := List.mem_singleton.mp hc
      exact .inr ⟨2, by decide +kernel⟩
    · intro c hc
      obtain rfl := List.mem_singleton.mp hc
      exact .inl ⟨_, rfl⟩
  exact ⟨⟨hblank, hposts⟩, refining_of_posts hblank hposts⟩

end LiveTemplate
