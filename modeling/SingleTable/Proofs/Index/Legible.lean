import SingleTable.Attribute.Kind
import SingleTable.Proofs.Index.Key
import SingleTable.Proofs.Number.Literal
import Mathlib.Data.List.Infix

/-! Values read back from composed keys.

The segments of a key are not escaped: a value ends where the mark of the next
facet begins. Values are `Legible` when this place can be found. A value that is
followed by a mark must be `Clear` of it, and then a key tells the values that it
was composed of (`eq_of_composeKey`). A value at which a string stops, for lack of
the next one, must be `Apart` from the mark, which is more: what comes behind the
string is not known, and could make a mark of its end (`apart_iff`). A string that
a longer key goes on from then tells all of its values but the last, of which the
longer key may hold more (`leading_of_append`). -/
namespace SingleTable

/-! ### Texts of values -/

/-- Values of one kind are both strings, both numbers or both booleans. -/
theorem Kind.alike {kind : Kind} {a b : Json} (ha : kind.refusal? a = none) (hb : kind.refusal? b = none) :
    (∃ x y, a = .string x ∧ b = .string y) ∨ (∃ x y, a = .number x ∧ b = .number y) ∨
      ∃ x y, a = .bool x ∧ b = .bool y := by
  cases kind with
  | scalar type => cases type <;> cases a <;> cases b <;> simp_all [refusal?, Scalar.admits]
  | oneOf accepted => cases a <;> cases b <;> simp_all [refusal?]

/-- Two values of one kind with one text are the same value. -/
theorem Kind.eq_of_keyText {kind : Kind} {a b : Json} (ha : kind.refusal? a = none) (hb : kind.refusal? b = none)
    (h : a.keyText = b.keyText) : a = b := by
  rcases kind.alike ha hb with ⟨x, y, rfl, rfl⟩ | ⟨x, y, rfl, rfl⟩ | ⟨x, y, rfl, rfl⟩
  · exact congrArg Json.string h
  · exact congrArg Json.number (Number.write_injective rfl h)
  · revert h
    cases x <;> cases y <;> decide

/-! ### Marks -/

/-- What stands before the value of a facet. -/
def marker (facet : String) : List Char := '#' :: (facet.toList ++ ['_'])

/-- A mark does not begin within a text that it follows. -/
def Clear (mark text : List Char) : Prop := ∀ n < text.length, ¬ mark <+: (text ++ mark).drop n

/-- No end of a text could be taken for the beginning of a mark, whatever follows the text. -/
def Apart (mark text : List Char) : Prop :=
  ∀ n < text.length, ¬ text.drop n <+: mark ∧ ¬ mark <+: text.drop n

instance (mark text : List Char) : Decidable (Clear mark text) :=
  inferInstanceAs (Decidable (∀ n < text.length, ¬ mark <+: (text ++ mark).drop n))

instance (mark text : List Char) : Decidable (Apart mark text) :=
  inferInstanceAs (Decidable (∀ n < text.length, ¬ text.drop n <+: mark ∧ ¬ mark <+: text.drop n))

theorem length_le_of_clear {mark t t' r r' : List Char} (h' : Clear mark t')
    (he : t ++ (mark ++ r) = t' ++ (mark ++ r')) : t'.length ≤ t.length := by
  by_contra hlt
  refine h' t.length (by omega) ?_
  -- Behind the shorter text there is the mark, within the longer text and its mark.
  have hmark : mark <+: (t' ++ (mark ++ r')).drop t.length := by
    rw [← he, List.drop_left]
    exact List.prefix_append ..
  have hwithin : (t' ++ mark).drop t.length <+: (t' ++ (mark ++ r')).drop t.length := by
    rw [← List.append_assoc]
    exact List.IsPrefix.drop (List.prefix_append (t' ++ mark) r') t.length
  refine List.prefix_of_prefix_length_le hmark hwithin ?_
  rw [List.length_drop, List.length_append]
  omega

/-- **A clear text ends at its mark.** -/
theorem Clear.split {mark t t' r r' : List Char} (h : Clear mark t) (h' : Clear mark t')
    (he : t ++ (mark ++ r) = t' ++ (mark ++ r')) : t = t' ∧ mark ++ r = mark ++ r' :=
  List.append_inj he (Nat.le_antisymm (length_le_of_clear h he.symm) (length_le_of_clear h' he))

/-- A text apart from the mark of what goes on after another text ends within that text. -/
theorem Apart.begins {mark t t' r r' : List Char} (h : Apart mark t) (he : t ++ r = t' ++ (mark ++ r')) :
    t <+: t' := by
  by_contra hnot
  have hlt : t'.length < t.length := by
    by_contra hle
    refine hnot (List.prefix_of_prefix_length_le (List.prefix_append t r) ?_ (by omega))
    rw [he]
    exact List.prefix_append ..
  -- The rest of the longer text and the mark begin at the same place.
  have hrest : t.drop t'.length ++ r = mark ++ r' := by
    have hdrop := congrArg (List.drop t'.length) he
    rwa [List.drop_append_of_le_length (by omega), List.drop_left] at hdrop
  obtain ⟨hshort, hlong⟩ := h t'.length hlt
  have htext : t.drop t'.length <+: mark ++ r' := hrest ▸ List.prefix_append ..
  rcases List.prefix_or_prefix_of_prefix htext (List.prefix_append mark r') with hbegins | hbegins
  · exact hshort hbegins
  · exact hlong hbegins

/-- What stands before the first place where a text could be taken for a mark is clear of the mark. -/
theorem clear_take {mark t : List Char} {n : Nat} (hn : t.drop n <+: mark ∨ mark <+: t.drop n)
    (hleast : ∀ m < n, ¬ t.drop m <+: mark ∧ ¬ mark <+: t.drop m) : Clear mark (t.take n) := by
  intro m hm hmark
  rw [List.drop_append_of_le_length (Nat.le_of_lt hm)] at hmark
  have hdrop : t.drop m = (t.take n).drop m ++ t.drop n := by
    rw [← List.drop_append_of_le_length (Nat.le_of_lt hm), List.take_append_drop]
  rw [List.length_take] at hm
  obtain ⟨hshort, hlong⟩ := hleast m (by omega)
  -- A mark that begins at `m` would do so in the text itself, which is earlier than at `n`.
  rcases hn with hbegins | hbegins
  · have hwithin : t.drop m <+: (t.take n).drop m ++ mark := by
      rw [hdrop]
      exact (List.prefix_append_right_inj _).mpr hbegins
    rcases List.prefix_or_prefix_of_prefix hwithin hmark with h | h
    · exact hshort h
    · exact hlong h
  · have hwithin : (t.take n).drop m ++ mark <+: t.drop m := by
      rw [hdrop]
      exact (List.prefix_append_right_inj _).mpr hbegins
    exact hlong (hmark.trans hwithin)

/-- **To be apart from a mark is no more than it takes**: whenever a clear text, its mark and what follows
go on from a text, that ends within the clear text. -/
theorem apart_iff {mark t : List Char} :
    Apart mark t ↔ ∀ t' r r', Clear mark t' → t ++ r = t' ++ (mark ++ r') → t <+: t' := by
  refine ⟨fun h _ _ _ _ he => h.begins he, fun h => ?_⟩
  by_contra hnot
  have hmeets : ∃ n, n < t.length ∧ (t.drop n <+: mark ∨ mark <+: t.drop n) := by
    by_contra hnone
    exact hnot fun n hn => not_or.mp fun hmeet => hnone ⟨n, hn, hmeet⟩
  obtain ⟨n, ⟨hn, hmeet⟩, hleast⟩ : ∃ n, (n < t.length ∧ (t.drop n <+: mark ∨ mark <+: t.drop n)) ∧
      ∀ m < n, ¬ (m < t.length ∧ (t.drop m <+: mark ∨ mark <+: t.drop m)) :=
    ⟨Nat.find hmeets, Nat.find_spec hmeets, fun _ => Nat.find_min hmeets⟩
  have hclear : Clear mark (t.take n) :=
    clear_take hmeet fun m hm => not_or.mp fun hearlier => hleast m hm ⟨Nat.lt_trans hm hn, hearlier⟩
  -- The text is longer than what stands before its first mark, so it does not end within that.
  have hlonger : ¬ t <+: t.take n := by
    intro hbegins
    have hle := hbegins.length_le
    rw [List.length_take] at hle
    omega
  rcases hmeet with ⟨r, hr⟩ | ⟨r', hr'⟩
  · refine hlonger (h _ r [] hclear ?_)
    rw [List.append_nil, ← hr, ← List.append_assoc, List.take_append_drop]
  · refine hlonger (h _ [] r' hclear ?_)
    rw [List.append_nil, hr', List.take_append_drop]

/-- A text that ends as a mark begins is clear of the mark, but not apart from it. -/
example : Clear (marker "id") "1#".toList ∧ ¬ Apart (marker "id") "1#".toList := by decide

/-- A text without the character that marks begin with. -/
def Plain (text : List Char) : Prop := '#' ∉ text

/-- Nothing that begins within a plain text begins with the character of a mark. -/
theorem Plain.head?_ne {text : List Char} (h : Plain text) (rest : List Char) {n : Nat} (hn : n < text.length) :
    (text.drop n ++ rest).head? ≠ some '#' := by
  rw [List.drop_eq_getElem_cons hn, List.cons_append, List.head?_cons]
  exact fun heq => h (Option.some.inj heq ▸ List.getElem_mem hn)

theorem head?_of_marker {facet : String} {text : List Char} (h : marker facet <+: text) :
    text.head? = some '#' := by
  obtain ⟨rest, rfl⟩ := h
  rfl

theorem Plain.clear {text : List Char} (h : Plain text) (facet : String) : Clear (marker facet) text := by
  intro n hn hmark
  rw [List.drop_append_of_le_length (Nat.le_of_lt hn)] at hmark
  exact h.head?_ne _ hn (head?_of_marker hmark)

theorem Plain.apart {text : List Char} (h : Plain text) (facet : String) : Apart (marker facet) text := by
  intro n hn
  refine ⟨fun hbegins => ?_, fun hmark => ?_⟩
  · obtain ⟨rest, hrest⟩ := hbegins
    exact h.head?_ne rest hn (hrest ▸ rfl)
  · refine h.head?_ne [] hn ?_
    rw [List.append_nil]
    exact head?_of_marker hmark

/-! ### Legible values -/

namespace Facets

/-- A value that the next facet follows is clear of that facet's mark, and one that ends the
composition for lack of the next facet is apart from it. -/
def Legible (values : Facets) (names : List String) : Prop :=
  ∀ pair ∈ names.zip names.tail, ∀ value ∈ values.value? pair.1,
    if values.has pair.2 then Clear (marker pair.2) value.keyText.toList
    else Apart (marker pair.2) value.keyText.toList

instance (values : Facets) (names : List String) : Decidable (values.Legible names) :=
  inferInstanceAs (Decidable (∀ pair ∈ names.zip names.tail, ∀ value ∈ values.value? pair.1,
    if values.has pair.2 then Clear (marker pair.2) value.keyText.toList
    else Apart (marker pair.2) value.keyText.toList))

/-- Values without the character of the marks are legible. -/
theorem legible_of_plain {values : Facets} {names : List String}
    (h : ∀ name ∈ names, ∀ value ∈ values.value? name, Plain value.keyText.toList) : values.Legible names := by
  intro pair hpair value hvalue
  have hplain := h pair.1 (List.of_mem_zip hpair).1 value hvalue
  split
  · exact hplain.clear pair.2
  · exact hplain.apart pair.2

theorem legible_cons_cons {values : Facets} {name next : String} {rest : List String} :
    values.Legible (name :: next :: rest) ↔
      (∀ value ∈ values.value? name, if values.has next then Clear (marker next) value.keyText.toList
        else Apart (marker next) value.keyText.toList) ∧ values.Legible (next :: rest) :=
  List.forall_mem_cons

/-- The segments of some facets and values. -/
def segments (pairs : List (String × Json)) : List Char :=
  pairs.flatMap fun pair => marker pair.1 ++ pair.2.keyText.toList

end Facets

theorem toList_segment (facet : String) (value : Json) :
    (segment facet value).toList = marker facet ++ value.keyText.toList := by
  simp [segment, marker, String.toList_append]

/-- A key is a scope and then segments. -/
theorem toList_composeKey (scope : String) (names : List String) (values : Facets) :
    (composeKey scope names values).toList = scope.toList ++ Facets.segments (values.leading names) := by
  rw [composeKey_eq_join, String.toList_append, Facets.segments]
  congr 1
  induction values.leading names with
  | nil => rfl
  | cons pair rest ih =>
    rw [List.map_cons, String.join_cons, String.toList_append, ih, toList_segment, List.flatMap_cons]

/-! ### Values read back -/

namespace Facets

theorem segments_cons (name : String) (value : Json) (pairs : List (String × Json)) :
    segments ((name, value) :: pairs) = marker name ++ value.keyText.toList ++ segments pairs :=
  List.flatMap_cons

theorem segments_append (xs ys : List (String × Json)) : segments (xs ++ ys) = segments xs ++ segments ys :=
  List.flatMap_append

theorem segments_eq_nil {pairs : List (String × Json)} : segments pairs = [] ↔ pairs = [] := by
  cases pairs with
  | nil => simp [segments]
  | cons pair rest =>
    obtain ⟨name, value⟩ := pair
    simp [segments_cons, marker]

theorem leading_cons {values : Facets} {name : String} {value : Json} (h : values.value? name = some value)
    (others : List String) : values.leading (name :: others) = (name, value) :: values.leading others := by
  rw [leading, h]

theorem leading_cons_none {values : Facets} {name : String} (h : values.value? name = none) (others : List String) :
    values.leading (name :: others) = [] := by
  rw [leading, h]

/-- A value in a string that a key goes on from is the one in the key, or it is the last one and the
key holds more of it. -/
def ReadsBack (known full : Facets) (names : List String) (pair : String × Json) : Prop :=
  full.value? pair.1 = some pair.2 ∨
    (known.leading names).getLast? = some pair ∧
      ∃ value, full.value? pair.1 = some value ∧ pair.2.keyText.toList <+: value.keyText.toList

/-- What is read back behind a first facet is read back. -/
theorem ReadsBack.cons {known full : Facets} {name : String} {value : Json} (hvalue : known.value? name = some value)
    {others : List String} {pair : String × Json} (h : ReadsBack known full others pair) :
    ReadsBack known full (name :: others) pair := by
  refine h.imp_right fun ⟨hlast, hmore⟩ => ⟨?_, hmore⟩
  rw [leading_cons hvalue, List.getLast?_cons, hlast]
  rfl

/-- **The values in a string that a key goes on from are those of the key**, but for the last. -/
theorem leading_of_append {known full : Facets} {names : List String} {rest : List Char}
    (hhas : ∀ name ∈ names, full.has name = true) (hknown : known.Legible names) (hfull : full.Legible names)
    (hkinds : ∀ name ∈ names, ∀ a b, known.value? name = some a → full.value? name = some b →
      a.keyText = b.keyText → a = b)
    (h : segments (known.leading names) ++ rest = segments (full.leading names)) :
    ∀ pair ∈ known.leading names, ReadsBack known full names pair := by
  induction names with
  | nil => exact fun _ hpair => nomatch hpair
  | cons name others ih =>
    cases hvalue : known.value? name with
    | none =>
      rw [leading_cons_none hvalue]
      exact fun _ hpair => nomatch hpair
    | some value =>
    obtain ⟨value', hvalue'⟩ := Option.isSome_iff_exists.mp (hhas name (List.mem_cons_self ..))
    rw [leading_cons hvalue, leading_cons hvalue', segments_cons, segments_cons, List.append_assoc, List.append_assoc,
      List.append_assoc, List.append_cancel_left_eq] at h
    -- If nothing is composed behind the value, the key holds at least this much.
    have hlast (hnone : known.leading others = []) (hbegins : value.keyText.toList <+: value'.keyText.toList) :
        ∀ pair ∈ known.leading (name :: others), ReadsBack known full (name :: others) pair := by
      intro pair hpair
      rw [leading_cons hvalue, hnone] at hpair
      obtain rfl := List.mem_singleton.mp hpair
      exact .inr ⟨by rw [leading_cons hvalue, hnone]; rfl, value', hvalue', hbegins⟩
    cases others with
    | nil => exact hlast rfl ⟨_, by simpa [leading, segments] using h⟩
    | cons next others =>
    have hnext := hhas next (List.mem_cons_of_mem _ (List.mem_cons_self ..))
    obtain ⟨next', hnext'⟩ := Option.isSome_iff_exists.mp hnext
    obtain ⟨hmark, hknown⟩ := legible_cons_cons.mp hknown
    obtain ⟨hmark', hfull⟩ := legible_cons_cons.mp hfull
    have hmark := hmark value hvalue
    have hclear := hmark' value' hvalue'
    rw [if_pos hnext] at hclear
    cases hunknown : known.value? next with
    | none =>
      have hnone := leading_cons_none hunknown others
      rw [if_neg (by rw [has, hunknown]; decide)] at hmark
      rw [hnone, leading_cons hnext', segments_cons, List.append_assoc] at h
      exact hlast hnone (apart_iff.mp hmark _ _ _ hclear h)
    | some other =>
      rw [if_pos (by rw [has, hunknown]; rfl)] at hmark
      rw [leading_cons hunknown, leading_cons hnext', segments_cons, segments_cons, List.append_assoc, List.append_assoc,
        List.append_assoc] at h
      obtain ⟨htext, hrest⟩ := hmark.split hclear h
      intro pair hpair
      rw [leading_cons hvalue] at hpair
      rcases List.mem_cons.mp hpair with rfl | hpair
      · left
        rw [hvalue', hkinds name (List.mem_cons_self ..) value value' hvalue hvalue' (String.toList_inj.mp htext)]
      · refine ReadsBack.cons hvalue (ih (fun n hn => hhas n (List.mem_cons_of_mem _ hn)) hknown hfull
          (fun n hn => hkinds n (List.mem_cons_of_mem _ hn)) ?_ pair hpair)
        rw [leading_cons hunknown, leading_cons hnext', segments_cons, segments_cons, List.append_assoc,
          List.append_assoc, List.append_assoc]
        exact hrest

/-- If all facets have values, no facet is composed only if there is none. -/
theorem isEmpty_leading {values : Facets} {names : List String} (hhas : ∀ name ∈ names, values.has name = true) :
    (values.leading names).isEmpty = names.isEmpty := by
  cases names with
  | nil => rfl
  | cons name others =>
    obtain ⟨value, hvalue⟩ := Option.isSome_iff_exists.mp (hhas name (List.mem_cons_self ..))
    rw [leading_cons hvalue]
    rfl

/-- Facets that all have values are composed, whatever comes behind them. -/
theorem mem_leading {values : Facets} {names : List String} (hhas : ∀ name ∈ names, values.has name = true)
    (others : List String) {name : String} (hname : name ∈ names) {value : Json} (hvalue : values.value? name = some value) :
    (name, value) ∈ values.leading (names ++ others) := by
  induction names with
  | nil => exact nomatch hname
  | cons other rest ih =>
    obtain ⟨first, hfirst⟩ := Option.isSome_iff_exists.mp (hhas other (List.mem_cons_self ..))
    rw [List.cons_append, leading_cons hfirst]
    rcases List.mem_cons.mp hname with rfl | hname
    · obtain rfl := Option.some.inj (hvalue.symm.trans hfirst)
      exact List.mem_cons_self ..
    · exact List.mem_cons_of_mem _ (ih (fun n hn => hhas n (List.mem_cons_of_mem _ hn)) hname)

end Facets

/-- **A key of all facets, legible, tells the value of each.** -/
theorem eq_of_composeKey {scope : String} {a b : Facets} {names : List String}
    (ha : ∀ name ∈ names, a.has name = true) (hb : ∀ name ∈ names, b.has name = true)
    (hlegible : a.Legible names) (hlegible' : b.Legible names)
    (hkinds : ∀ name ∈ names, ∀ x y, a.value? name = some x → b.value? name = some y → x.keyText = y.keyText → x = y)
    (h : composeKey scope names a = composeKey scope names b) : ∀ name ∈ names, a.value? name = b.value? name := by
  have hsegments : Facets.segments (a.leading names) = Facets.segments (b.leading names) := by
    have htext := congrArg String.toList h
    rwa [toList_composeKey, toList_composeKey, List.append_cancel_left_eq] at htext
  intro name hname
  obtain ⟨x, hx⟩ := Option.isSome_iff_exists.mp (ha name hname)
  obtain ⟨y, hy⟩ := Option.isSome_iff_exists.mp (hb name hname)
  have hx' := Facets.mem_leading ha [] hname hx
  have hy' := Facets.mem_leading hb [] hname hy
  rw [List.append_nil] at hx' hy'
  have hforward := Facets.leading_of_append hb hlegible hlegible' hkinds (by rw [List.append_nil, hsegments])
    _ hx'
  have hbackward := Facets.leading_of_append ha hlegible' hlegible
    (fun n hn v w hv hw htext => (hkinds n hn w v hw hv htext.symm).symm) (by rw [List.append_nil, hsegments])
    _ hy'
  rcases hforward with hsame | ⟨-, value, hvalue, hbegins⟩
  · rw [hx, hsame]
  rcases hbackward with hsame | ⟨-, value', hvalue', hbegins'⟩
  · rw [hy, hsame]
  -- Both are last, and each begins the other.
  obtain rfl := Option.some.inj (hvalue.symm.trans hy)
  obtain rfl := Option.some.inj (hvalue'.symm.trans hx)
  have htext := hbegins.eq_of_length (Nat.le_antisymm hbegins.length_le hbegins'.length_le)
  rw [hx, hy, hkinds name hname _ _ hx hy (String.toList_inj.mp htext)]

end SingleTable
