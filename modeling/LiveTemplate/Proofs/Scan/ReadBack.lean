import LiveTemplate.Proofs.Scan.Moments
import LiveTemplate.Proofs.Plain.Marked
import LiveTemplate.Proofs.Text.References

/-!
# Reading a note back

A note lists the names of the placeholders of a tag, as the value of a double-quoted attribute.  The
names are written as they are.  A reader takes the value up to the next double quote, decodes the
references in it and splits it at the delimiter; `readNote` is this.

So the names come back exactly if none of them holds a double quote and each of them is what its
references are decoded to: `note_reads_back_iff`.  A name with a double quote cannot come back,
because the value ends there and decoding makes nothing longer.
-/

namespace LiveTemplate

set_option autoImplicit false

open Text

variable {m : Markers} {d : Dialect}

/-- The rules by which a dialect decodes references in attribute values. -/
def Dialect.references : Dialect → ReferenceRules
  | .html => htmlReferences
  | .svg => svgReferences

/-- An attribute value as a reader of the dialect decodes it. -/
def Dialect.decodeValue (d : Dialect) (s : List Char) : List Char :=
  match d with
  | .html => Text.decodeValue s
  | .svg => Xml.lenientValue s s.length

theorem Dialect.decodeValue_eq (d : Dialect) (s : List Char) :
    d.decodeValue s = d.references.decode s := by
  cases d with
  | html => exact Text.decodeValue_eq s
  | svg => exact Text.lenientValue_eq s

namespace Markers

/-- What stands in a note in front of its value. -/
def noteStart (m : Markers) : List Char := ' ' :: m.attributes.toList ++ ['=', '"']

theorem note_eq (m : Markers) (names : List (List Char)) :
    m.note names = m.noteStart ++ join names ++ ['"'] := by
  simp [note, noteStart]

/-- The names that a reader finds in a note of which `s` follows the opening quote. -/
def readNote (d : Dialect) (s : List Char) : List (List Char) :=
  split (d.decodeValue (s.takeWhile (· != '"')))

theorem join_singleton (name : List Char) : join [name] = name := List.intercalate_singleton

theorem join_cons_cons (name next : List Char) (rest : List (List Char)) :
    join (name :: next :: rest) = name ++ ' ' :: join (next :: rest) := by
  rw [join, List.intercalate_cons_cons, List.append_assoc]
  rfl

/-- What is split is joined again. -/
theorem join_split (s : List Char) : join (split s) = s := by
  induction s with
  | nil => rfl
  | cons c rest ih =>
      obtain ⟨name, names, hsplit⟩ := List.exists_cons_of_ne_nil (split_ne_nil rest)
      rw [hsplit] at ih
      rw [split, hsplit]
      by_cases hc : c = delimiter
      · rw [if_pos hc, join_cons_cons, ih, hc]
        rfl
      · rw [if_neg hc]
        cases names with
        | nil => exact congrArg (c :: ·) ih
        | cons next names =>
            show join ((c :: name) :: next :: names) = c :: rest
            rw [join_cons_cons] at ih ⊢
            exact congrArg (c :: ·) ih

/-- The names of a note are decoded one by one. -/
theorem decodeValue_join (d : Dialect) (names : List (List Char)) :
    d.decodeValue (join names) = join (names.map d.decodeValue) := by
  induction names with
  | nil => cases d <;> rfl
  | cons name rest ih =>
      cases rest with
      | nil => rw [List.map_singleton, join_singleton, join_singleton]
      | cons next rest =>
          rw [List.map_cons, List.map_cons, join_cons_cons, join_cons_cons, ← List.map_cons, ← ih,
            d.decodeValue_eq, ReferenceRules.decode_space, ← d.decodeValue_eq,
            ← d.decodeValue_eq]

/-- Names that are made no longer are as they were if the list of them is. -/
theorem map_eq_of_join_eq {f : List Char → List Char} (hf : ∀ s, (f s).length ≤ s.length)
    (names : List (List Char)) :
    (join (names.map f)).length ≤ (join names).length ∧
      (join (names.map f) = join names → ∀ name ∈ names, f name = name) := by
  induction names with
  | nil => exact ⟨Nat.le_refl _, fun _ => nofun⟩
  | cons name rest ih =>
      cases rest with
      | nil =>
          rw [List.map_singleton, join_singleton, join_singleton]
          exact ⟨hf name, fun h => List.forall_mem_singleton.mpr h⟩
      | cons next rest =>
          have hname := hf name
          have hrest := ih.1
          rw [List.map_cons] at ih hrest ⊢
          rw [List.map_cons, join_cons_cons, join_cons_cons]
          constructor
          · simp only [List.length_append, List.length_cons] at hrest ⊢
            omega
          · intro h
            have hlength := congrArg List.length h
            simp only [List.length_append, List.length_cons] at hlength
            obtain ⟨hfirst, hlater⟩ := List.append_inj h (by omega)
            exact List.forall_mem_cons.mpr ⟨hfirst, ih.2 (List.cons.inj hlater).2⟩

theorem mem_join_of_mem {names : List (List Char)} {name : List Char} {c : Char}
    (hname : name ∈ names) (hc : c ∈ name) : c ∈ join names := by
  induction names with
  | nil => exact nomatch hname
  | cons first rest ih =>
      cases rest with
      | nil =>
          rw [join_singleton]
          exact List.mem_singleton.mp hname ▸ hc
      | cons next rest =>
          rw [join_cons_cons]
          rcases List.mem_cons.mp hname with rfl | hlater
          · exact List.mem_append_left _ hc
          · exact List.mem_append_right _ (List.mem_cons_of_mem _ (ih hlater))

theorem quote_mem_join_iff {names : List (List Char)} :
    '"' ∈ join names ↔ ∃ name ∈ names, '"' ∈ name := by
  constructor
  · intro h
    rcases Plain.mem_join h with hdelimiter | hname
    · exact absurd hdelimiter (by decide)
    · exact hname
  · rintro ⟨name, hname, hc⟩
    exact mem_join_of_mem hname hc

/-- The names of a note come back exactly if none of them holds a double quote and each of them is
what its references are decoded to. -/
theorem readNote_iff {names : List (List Char)} (hne : names ≠ [])
    (hnames : ∀ name ∈ names, delimiter ∉ name) (d : Dialect) (behind : List Char) :
    readNote d (join names ++ '"' :: behind) = names ↔
      ∀ name ∈ names, '"' ∉ name ∧ d.decodeValue name = name := by
  have hshorter : ∀ s, (d.decodeValue s).length ≤ s.length := fun s => by
    rw [d.decodeValue_eq]
    exact ReferenceRules.length_decode_le s
  rw [readNote, takeWhile_append_stop rfl]
  constructor
  · intro h
    have hback : d.decodeValue ((join names).takeWhile (· != '"')) = join names := by
      rw [← join_split (d.decodeValue _), h]
    have htake : (join names).takeWhile (· != '"') = join names := by
      refine (List.takeWhile_prefix _).eq_of_length_le ?_
      rw [← congrArg List.length hback]
      exact hshorter _
    have hquote : ∀ name ∈ names, '"' ∉ name := fun name hname hmem => by
      have hall := List.takeWhile_eq_self_iff.mp htake '"' (mem_join_of_mem hname hmem)
      exact absurd hall (by decide)
    rw [htake, decodeValue_join] at hback
    have hsame := (map_eq_of_join_eq hshorter names).2 hback
    exact fun name hname => ⟨hquote name hname, hsame name hname⟩
  · intro h
    have htake : (join names).takeWhile (· != '"') = join names := by
      refine List.takeWhile_eq_self_iff.mpr fun c hc => bne_iff_ne.mpr ?_
      rintro rfl
      obtain ⟨name, hname, hmem⟩ := quote_mem_join_iff.mp hc
      exact (h name hname).1 hmem
    have hsame : names.map d.decodeValue = names :=
      (List.map_congr_left fun name hname => (h name hname).2).trans (List.map_id names)
    rw [htake, decodeValue_join, hsame, split_join hne hnames]

end Markers

/-- The note of a tag stands in the marked fragment behind what has been written up to the end of
the tag, a slash at its end left out.  A reader finds in it exactly the names that wait there, in
their order, if none of them holds a double quote and each of them is what its references are
decoded to, and else it finds others. -/
theorem note_reads_back_iff {fragments written : List String}
    (hscan : (scan m d fragments).1 = .ok written) {index k : Nat}
    (hnote : NotedAt m d {} (fragments.map String.toList) index k) :
    ∃ front slash behind,
      (progressFrom m d {} (fragments.map String.toList) index k).written.reverse
        = front ++ slash ∧
      (slash = [] ∨ slash = ['/']) ∧
      (written.map String.toList)[index]? = some (front ++ m.noteStart ++ behind) ∧
      (Markers.readNote d behind
          = (progressFrom m d {} (fragments.map String.toList) index k).pending ↔
        ∀ name ∈ (progressFrom m d {} (fragments.map String.toList) index k).pending,
          '"' ∉ name ∧ d.decodeValue name = name) := by
  have htexts := scan_ok hscan
  obtain ⟨front, slash, behind, hfront, hslash, hwritten⟩ := exists_note htexts hnote
  have hsettled := settled_progressFrom ScanState.Settled.start htexts index k
  have hnames := Markers.readNote_iff (ScanProgress.closes_eq_true_iff.mp hnote.closes).2
    (fun name hname => delimiter_not_mem (hsettled.pending_names name hname)) d
    (slash ++ '>' :: behind)
  refine ⟨front, slash, _, hfront, hslash, ?_, hnames⟩
  rw [hwritten, Markers.note_eq]
  simp

/-- A tag that closes itself, with three placeholders, of which one stands for the element. -/
theorem note_reads_back_iff_image :
    ∃ front behind, " data-dtpp-attributes=\"alt  title\"/>".toList
        = front ++ ({} : Markers).noteStart ++ behind ∧
      Markers.readNote .html behind = ["alt".toList, [], "title".toList] := by
  let fragments := ["<img ALT='", "' ", " title=", "/>"]
  have hscan : (scan {} .html fragments).1 = .ok ["<img ALT='", "' ", " title=\"\"",
      " data-dtpp-attributes=\"alt  title\"/>"] := by decide +kernel
  have hnote : NotedAt {} .html {} (fragments.map String.toList) 3 1 :=
    ⟨⟨_, rfl, rfl⟩, by decide +kernel⟩
  have hnames : (progressFrom {} .html {} (fragments.map String.toList) 3 1).pending
      = ["alt".toList, [], "title".toList] := by decide +kernel
  obtain ⟨front, slash, behind, -, -, hwritten, hiff⟩ := note_reads_back_iff hscan hnote
  rw [hnames] at hiff
  exact ⟨front, behind, Option.some.inj hwritten, hiff.mpr (by decide +kernel)⟩

/-- A name with a double quote is cut off there, and one with a reference is read as what the
reference stands for. -/
theorem names_lost_in_note :
    ((progressFrom {} .html {} (["<p a\"b=", "></p>"].map String.toList) 1 0).pending
        = ["a\"b".toList] ∧
      (scan {} .html ["<p a\"b=", "></p>"]).1
        = .ok ["<p a\"b=\"\"", " data-dtpp-attributes=\"a\"b\"></p>"] ∧
      Markers.readNote .html "a\"b\"></p>".toList = ["a".toList]) ∧
    (progressFrom {} .html {} (["<p a&amp;b=", "></p>"].map String.toList) 1 0).pending
        = ["a&amp;b".toList] ∧
      (scan {} .html ["<p a&amp;b=", "></p>"]).1
        = .ok ["<p a&amp;b=\"\"", " data-dtpp-attributes=\"a&amp;b\"></p>"] ∧
      Markers.readNote .html "a&amp;b\"></p>".toList = ["a&b".toList] := by
  decide +kernel

end LiveTemplate
