import ScopedValues.Proofs.Views.Spelling

/-!
Contract: what the plain form of a value tells about it.

Owns the reading of a plain form from left to right: words, quoted text, and what stands
between brackets.

Main statement: two values without operators, variable names and quotes have the same
plain form only if they have the same structure.
-/

set_option autoImplicit false

namespace ScopedValues

open Store Likeness

/-! ## Where a text ends -/

namespace Decoding

/-- Whether a character can stand behind a value. -/
def isStop (c : Char) : Bool :=
  c == ',' || c == ')' || c == ']' || c == ' '

/-- A text that goes on, if it does, with a character that can stand behind a value. -/
def Stops (rest : List Char) : Prop :=
  ∀ c ∈ rest.head?, isStop c = true

theorem stops_nil : Stops [] := by
  simp [Stops]

theorem stops_cons {c : Char} {rest : List Char} (stop : isStop c = true) : Stops (c :: rest) := by
  simpa [Stops] using stop

/-- Texts without a character of a kind, up to the first one of that kind. -/
theorem append_inj_of_ends {kind : Char → Bool} {s t u v : List Char}
    (left : ∀ c ∈ s, kind c = false) (right : ∀ c ∈ t, kind c = false)
    (ends : ∀ c ∈ u.head?, kind c = true) (endsToo : ∀ c ∈ v.head?, kind c = true)
    (same : s ++ u = t ++ v) : s = t ∧ u = v := by
  induction s generalizing t with
  | nil =>
      cases t with
      | nil => exact ⟨rfl, same⟩
      | cons c t =>
          have first := ends c (by rw [List.nil_append] at same; simp [same])
          rw [right c List.mem_cons_self] at first
          cases first
  | cons c s inductionHypothesis =>
      cases t with
      | nil =>
          have first := endsToo c (by rw [List.nil_append] at same; simp [← same])
          rw [left c List.mem_cons_self] at first
          cases first
      | cons d t =>
          obtain ⟨rfl, rest⟩ := List.cons.inj same
          rw [List.forall_mem_cons] at left right
          obtain ⟨rfl, rfl⟩ := inductionHypothesis left.2 right.2 rest
          exact ⟨rfl, rfl⟩

theorem ne_quote {text : String} (clean : '"' ∉ text.toList) :
    ∀ c ∈ text.toList, (c == '"') = false := by
  intro c member
  rw [beq_eq_false_iff_ne]
  rintro rfl
  exact clean member

/-! ## Sequences -/

section Sequences

variable {ι : Type} {written : ι → List Char} {related : ι → ι → Prop}

/-- Nothing but related parts are written alike, whatever stands behind them. -/
def Decodes (written : ι → List Char) (related : ι → ι → Prop) (i j : ι) : Prop :=
  ∀ u v, Stops u → Stops v → written i ++ u = written j ++ v → related i j ∧ u = v

/-- The text of a part starts with a character that does not stand behind values. -/
def Starts (written : ι → List Char) (i : ι) : Prop :=
  ∃ c rest, written i = c :: rest ∧ isStop c = false

/-- Parts with commas between them. -/
def joined (written : ι → List Char) (items : List ι) : List Char :=
  [',', ' '].intercalate (items.map written)

/-- What stands behind the first of several parts. -/
def behind (written : ι → List Char) (close : List Char) : List ι → List Char
  | [] => close
  | item :: rest => ',' :: ' ' :: (joined written (item :: rest) ++ close)

theorem joined_cons (item : ι) (rest : List ι) (close : List Char) :
    joined written (item :: rest) ++ close = written item ++ behind written close rest := by
  cases rest with
  | nil => simp [joined, behind]
  | cons next rest =>
      simp only [joined, behind, List.map_cons, List.intercalate_cons_cons, List.append_assoc,
        List.cons_append, List.nil_append]

theorem stops_behind {c : Char} {close : List Char} (stop : isStop c = true) (rest : List ι) :
    Stops (behind written (c :: close) rest) := by
  cases rest with
  | nil => exact stops_cons stop
  | cons => exact stops_cons rfl

/-- Sequences that are closed alike are read part by part. -/
theorem decodes_joined {c : Char} (stop : isStop c = true) (noComma : c ≠ ',')
    {items others : List ι}
    (each : ∀ i ∈ items, ∀ j ∈ others, Decodes written related i j)
    (starts : ∀ i ∈ items, Starts written i) (startsToo : ∀ j ∈ others, Starts written j)
    {u v : List Char} (same : joined written items ++ c :: u = joined written others ++ c :: v) :
    items.length = others.length ∧
      (∀ (n : Nat) (i j : ι), items[n]? = some i → others[n]? = some j → related i j) ∧
        u = v := by
  induction items generalizing others with
  | nil =>
      cases others with
      | nil =>
          exact ⟨rfl, fun n i j left => by simp at left, (List.cons.inj same).2⟩
      | cons j others =>
          obtain ⟨d, rest, first, noStop⟩ := startsToo j List.mem_cons_self
          rw [joined_cons, first] at same
          obtain ⟨rfl, _⟩ := List.cons.inj same
          rw [stop] at noStop
          cases noStop
  | cons i items inductionHypothesis =>
      rw [List.forall_mem_cons] at starts
      cases others with
      | nil =>
          obtain ⟨d, rest, first, noStop⟩ := starts.1
          rw [joined_cons, first] at same
          obtain ⟨rfl, _⟩ := List.cons.inj same
          rw [stop] at noStop
          cases noStop
      | cons j others =>
          rw [List.forall_mem_cons] at each startsToo
          rw [joined_cons, joined_cons] at same
          obtain ⟨first, rest⟩ := each.1 j List.mem_cons_self _ _ (stops_behind stop items)
            (stops_behind stop others) same
          have later : items.length = others.length ∧
              (∀ (n : Nat) (i j : ι), items[n]? = some i → others[n]? = some j → related i j) ∧
                u = v := by
            cases items with
            | nil =>
                cases others with
                | nil => exact ⟨rfl, fun n i j left => by simp at left, (List.cons.inj rest).2⟩
                | cons => exact absurd (List.cons.inj rest).1 noComma
            | cons item items =>
                cases others with
                | nil => exact absurd (List.cons.inj rest).1.symm noComma
                | cons other others =>
                    refine inductionHypothesis (fun i member j memberToo =>
                      each.2 i member j (List.mem_cons_of_mem _ memberToo)) starts.2 startsToo.2 ?_
                    exact (List.cons.inj (List.cons.inj rest).2).2
          obtain ⟨length, all, same⟩ := later
          refine ⟨congrArg Nat.succ length, fun n k l left right => ?_, same⟩
          cases n with
          | zero =>
              cases left
              cases right
              exact first
          | succ n => exact all n k l left right

end Sequences

end Decoding

open Decoding

/-! ## Values to be read -/

namespace Value

/-- Neither an operator nor a variable name, and no quote in a string or a key. -/
def Plain (store : Store) : Value → Prop
  | .scalar (.op _) => False
  | .scalar (.var _) => False
  | .scalar (.str text) => '"' ∉ text.toList
  | .map a => ∀ key ∈ (store.scope a).bindings.keys, '"' ∉ key.toList
  | _ => True

/-- The character that the plain form of a value starts with, unless it is a word. -/
def mark? : Value → Option Char
  | .scalar (.str _) => some '"'
  | .scalar _ => Option.none
  | .tuple _ => some '('
  | .list _ => some '['
  | .map _ => some '\x7b'

end Value

namespace Store

def chars (store : Store) (value : Value) : List Char :=
  (store.spelling value).toList

/-- The bindings of a scope in the order in which its plain form shows them. -/
def shownEntries (store : Store) (a : Addr) : List (String × Value) :=
  (store.scope a).bindings.entries.mergeSort fun earlier later => decide (earlier.1 ≤ later.1)

def entryChars (store : Store) (entry : String × Value) : List Char :=
  '"' :: (entry.1.toList ++ '"' :: ':' :: ' ' :: store.chars entry.2)

variable {store : Store} {a : Addr}

theorem mem_shownEntries {entry : String × Value} :
    entry ∈ store.shownEntries a ↔ entry ∈ (store.scope a).bindings.entries :=
  (List.mergeSort_perm _ _).mem_iff

theorem toList_commaSeparated {ι : Type} (text : ι → String) (items : List ι) :
    (Tree.commaSeparated (items.map text)).toList =
      joined (fun item => (text item).toList) items := by
  rw [Tree.commaSeparated, String.toList_intercalate, List.map_map]
  rfl

theorem chars_tuple (typed : store.Typed) {items : List Value}
    (each : ∀ item ∈ items, item.Ends store) :
    store.chars (.tuple items) = '(' :: (joined store.chars items ++ [')']) := by
  rw [chars, Value.spelling_tuple typed each, String.toList_append, String.toList_append,
    toList_commaSeparated]
  rfl

theorem chars_list (typed : store.Typed) (isList : store.IsList a) (free : a ∉ store.lent)
    (each : ∀ item ∈ store.items a, item.Ends store) :
    store.chars (.list a) = '[' :: (joined store.chars (store.items a) ++ [']']) := by
  rw [chars, Value.spelling_list typed isList free each, String.toList_append,
    String.toList_append, toList_commaSeparated]
  rfl

theorem byKey_entries (store : Store) (a : Addr) :
    Tree.byKey ((store.scope a).bindings.entries.map fun entry =>
        (entry.1, store.spelling entry.2)) =
      (store.shownEntries a).map fun entry => (entry.1, store.spelling entry.2) := by
  rw [Tree.byKey, shownEntries, List.map_mergeSort]
  exact fun _ _ _ _ => rfl

theorem isEmpty_shownEntries (store : Store) (a : Addr) :
    (store.shownEntries a).isEmpty = (store.scope a).bindings.entries.isEmpty := by
  rw [Bool.eq_iff_iff, List.isEmpty_iff, List.isEmpty_iff, ← List.length_eq_zero_iff,
    ← List.length_eq_zero_iff, shownEntries, List.length_mergeSort]

theorem toList_bindingText (entry : String × Value) :
    (Tree.bindingText (entry.1, store.spelling entry.2)).toList = store.entryChars entry := by
  simp only [Tree.bindingText, String.toList_append, entryChars, chars, List.append_assoc]
  rfl

theorem chars_map (typed : store.Typed) (isScope : store.IsScope a) (free : a ∉ store.lent)
    (each : ∀ entry ∈ (store.scope a).bindings.entries, entry.2.Ends store) :
    store.chars (.map a) = if (store.shownEntries a).isEmpty then ['\x7b', '\x7d']
      else '\x7b' :: ' ' :: (joined store.entryChars (store.shownEntries a) ++ [' ', '\x7d']) := by
  rw [chars, Value.spelling_map typed isScope free each, Tree.bindingsText, byKey_entries,
    List.isEmpty_map, isEmpty_shownEntries]
  split
  · rfl
  · rw [List.map_map, String.toList_append, String.toList_append, toList_commaSeparated]
    have entries : (fun entry : String × Value =>
        ((Tree.bindingText ∘ fun entry => (entry.1, store.spelling entry.2)) entry).toList) =
          store.entryChars := funext toList_bindingText
    rw [entries]
    rfl

end Store

/-! ## Words -/

namespace Scalar

/-- Whether the plain form of a scalar is a word: it is neither quoted nor chosen freely. -/
def isWord : Scalar → Bool
  | .none => true
  | .num _ => true
  | _ => false

def isWordChar (c : Char) : Bool :=
  c.isDigit || ['-', '.', 'i', 'n', 'f', 'N', 'a', 'o', 'e'].contains c

theorem mem_text_of_isWord {x : Scalar} (word : x.isWord = true) :
    ∀ c ∈ x.text.toList, isWordChar c = true := by
  intro c member
  cases x with
  | none =>
      have chars : Scalar.none.text.toList = ['N', 'o', 'n', 'e'] := rfl
      have letters : ['N', 'o', 'n', 'e'].all isWordChar = true := by decide
      exact List.all_eq_true.mp letters c (chars ▸ member)
  | num x =>
      rw [isWordChar, Bool.or_eq_true, List.contains_iff_mem]
      rcases x.mem_text c member with digit | letter
      · exact .inl digit
      · exact .inr (List.mem_append_left ['o', 'e'] letter)
  | op | var | str => cases word

theorem text_ne_nil_of_isWord {x : Scalar} (word : x.isWord = true) : x.text.toList ≠ [] := by
  cases x with
  | none => decide
  | num x => exact x.toList_text_ne_nil
  | op | var | str => cases word

/-- No word stands for two scalars, apart from NaNs. -/
theorem structural_of_text_eq {x y : Scalar} (word : x.isWord = true) (wordToo : y.isWord = true)
    (same : x.text = y.text) : structural.scalars x y := by
  have differ : ∀ number : Double, Scalar.none.text ≠ (Scalar.num number).text := by
    intro number same
    have member : 'o' ∈ number.text.toList := by
      have chars := congrArg String.toList same
      exact chars ▸ (by decide : 'o' ∈ Scalar.none.text.toList)
    exact absurd (number.mem_text 'o' member) (by decide)
  cases x with
  | none =>
      cases y with
      | none => exact .inl rfl
      | num y => exact absurd same (differ y)
      | op | var | str => cases wordToo
  | num x =>
      cases y with
      | none => exact absurd same.symm (differ x)
      | num y =>
          rcases (Double.text_eq_iff x y).mp same with rfl | nans
          · exact .inl rfl
          · exact .inr nans
      | op | var | str => cases wordToo
  | op | var | str => cases word

theorem not_isStop_of_isWordChar {c : Char} (word : isWordChar c = true) : isStop c = false := by
  by_contra stop
  rw [Bool.not_eq_false, isStop] at stop
  simp only [Bool.or_eq_true, beq_iff_eq] at stop
  rcases stop with ((rfl | rfl) | rfl) | rfl <;> exact absurd word (by decide)

end Scalar

/-! ## How plain forms start -/

namespace Value

variable {store : Store} {x y : Value} {c : Char}

/-- A plain form that starts with a character starts with the mark of its value, or with
a character of a word. -/
def FirstOf (x : Value) (c : Char) : Prop :=
  x.mark? = some c ∨ x.mark? = Option.none ∧ Scalar.isWordChar c = true

/-- A mark neither stops a part nor belongs to a word. -/
theorem kind_of_mark (marked : x.mark? = some c) :
    isStop c = false ∧ Scalar.isWordChar c = false := by
  cases x with
  | scalar x =>
      cases x with
      | str =>
          cases marked
          decide
      | none | op | var | num => cases marked
  | tuple | list | map =>
      cases marked
      decide

theorem FirstOf.not_isStop (first : x.FirstOf c) : isStop c = false := by
  rcases first with marked | ⟨_, word⟩
  · exact (kind_of_mark marked).1
  · exact Scalar.not_isStop_of_isWordChar word

theorem FirstOf.mark?_eq (first : x.FirstOf c) (second : y.FirstOf c) : x.mark? = y.mark? := by
  rcases first with marked | ⟨unmarked, word⟩
  · rcases second with markedToo | ⟨_, word⟩
    · rw [marked, markedToo]
    · rw [(kind_of_mark marked).2] at word
      cases word
  · rcases second with marked | ⟨unmarkedToo, _⟩
    · rw [(kind_of_mark marked).2] at word
      cases word
    · rw [unmarked, unmarkedToo]

theorem chars_scalar (store : Store) (x : Scalar) : store.chars (.scalar x) = x.text.toList :=
  rfl

theorem chars_str (store : Store) (text : String) :
    store.chars (.scalar (.str text)) = '"' :: (text.toList ++ ['"']) := by
  rw [chars_scalar, Scalar.text, String.toList_append, String.toList_append]
  rfl

theorem isWord_of_plain {x : Scalar} (plain : (Value.scalar x).Plain store)
    (unmarked : (Value.scalar x).mark? = Option.none) : x.isWord = true := by
  cases x with
  | none | num => rfl
  | op | var => exact absurd plain (by simp [Plain])
  | str => cases unmarked

theorem Ends.exists_first (typed : store.Typed) (ends : x.Ends store) (plain : x.Plain store) :
    ∃ c rest, store.chars x = c :: rest ∧ x.FirstOf c := by
  cases ends with
  | scalar x =>
      cases mark : (Value.scalar x).mark? with
      | none =>
          have word := isWord_of_plain plain mark
          obtain ⟨c, rest, text⟩ := List.exists_cons_of_ne_nil (Scalar.text_ne_nil_of_isWord word)
          refine ⟨c, rest, text, .inr ⟨mark, ?_⟩⟩
          exact Scalar.mem_text_of_isWord word c (text ▸ List.mem_cons_self)
      | some c =>
          cases x with
          | str text => exact ⟨_, _, chars_str store text, .inl rfl⟩
          | none | op | var | num => cases mark
  | tuple each => exact ⟨_, _, chars_tuple typed each, .inl rfl⟩
  | list isList free each => exact ⟨_, _, chars_list typed isList free each, .inl rfl⟩
  | map isScope free each =>
      rw [chars_map typed isScope free each]
      split <;> exact ⟨_, _, rfl, .inl rfl⟩

theorem Ends.starts (typed : store.Typed) (ends : x.Ends store) (plain : x.Plain store) :
    Starts store.chars x := by
  obtain ⟨c, rest, text, first⟩ := ends.exists_first typed plain
  exact ⟨c, rest, text, first.not_isStop⟩

theorem Ends.mark?_eq (typed : store.Typed) (ends : x.Ends store) (endsToo : y.Ends store)
    (plain : x.Plain store) (plainToo : y.Plain store) {u v : List Char}
    (same : store.chars x ++ u = store.chars y ++ v) : x.mark? = y.mark? := by
  obtain ⟨c, rest, text, first⟩ := ends.exists_first typed plain
  obtain ⟨d, restToo, textToo, second⟩ := endsToo.exists_first typed plainToo
  rw [text, textToo] at same
  obtain ⟨rfl, _⟩ := List.cons.inj same
  exact first.mark?_eq second

/-! ## Reading values -/

theorem decodes_scalar {x y : Scalar} (plain : (Value.scalar x).Plain store)
    (plainToo : (Value.scalar y).Plain store)
    (marks : (Value.scalar x).mark? = (Value.scalar y).mark?) :
    Decodes store.chars (Alike structural store) (.scalar x) (.scalar y) := by
  intro u v stops stopsToo same
  cases mark : (Value.scalar x).mark? with
  | none =>
      have word := isWord_of_plain plain mark
      have wordToo := isWord_of_plain plainToo (marks ▸ mark)
      have chars : ∀ {x : Scalar}, x.isWord = true → ∀ c ∈ x.text.toList, isStop c = false :=
        fun word c member =>
          Scalar.not_isStop_of_isWordChar (Scalar.mem_text_of_isWord word c member)
      obtain ⟨texts, rfl⟩ := append_inj_of_ends (chars word) (chars wordToo) stops stopsToo same
      have text := String.toList_inj.mp texts
      exact ⟨.scalar (Scalar.structural_of_text_eq word wordToo text), rfl⟩
  | some c =>
      rw [mark] at marks
      cases x with
      | str text =>
          cases y with
          | str textToo =>
              rw [chars_str, chars_str, List.cons_append, List.cons_append, List.append_assoc,
                List.append_assoc] at same
              obtain ⟨texts, rest⟩ := append_inj_of_ends (ne_quote plain) (ne_quote plainToo)
                (by simp) (by simp) (List.cons.inj same).2
              obtain rfl := String.toList_inj.mp texts
              exact ⟨.scalar (.inl rfl), (List.cons.inj rest).2⟩
          | none | op | var | num => cases marks
      | none | op | var | num => cases mark

theorem decodes_entry {first second : String × Value} (plain : '"' ∉ first.1.toList)
    (plainToo : '"' ∉ second.1.toList)
    (decodes : Decodes store.chars (Alike structural store) first.2 second.2) :
    Decodes store.entryChars
      (fun first second => first.1 = second.1 ∧ Alike structural store first.2 second.2)
      first second := by
  intro u v stops stopsToo same
  rw [entryChars, entryChars, List.cons_append, List.cons_append, List.append_assoc,
    List.append_assoc] at same
  obtain ⟨keys, rest⟩ := append_inj_of_ends (ne_quote plain) (ne_quote plainToo) (by simp) (by simp)
    (List.cons.inj same).2
  simp only [List.cons_append, List.cons.injEq, true_and] at rest
  obtain ⟨alike, rfl⟩ := decodes u v stops stopsToo rest
  exact ⟨⟨String.toList_inj.mp keys, alike⟩, rfl⟩

/-- The shown entries of two maps, read one by one, have the same keys and like values. -/
theorem alike_of_shownEntries {a b : Addr} (sound : store.Sound)
    (length : (store.shownEntries a).length = (store.shownEntries b).length)
    (each : ∀ (n : Nat) (first second : String × Value), (store.shownEntries a)[n]? = some first →
      (store.shownEntries b)[n]? = some second →
        first.1 = second.1 ∧ Alike structural store first.2 second.2) :
    Alike structural store (.map a) (.map b) := by
  have counterpart : ∀ key x, (key, x) ∈ (store.scope a).bindings.entries →
      ∃ y, (store.scope b).bindings.get? key = some y ∧ Alike structural store x y := by
    intro key x stored
    obtain ⟨n, left⟩ := List.getElem?_of_mem (mem_shownEntries.mpr stored)
    obtain ⟨⟨other, y⟩, right⟩ := exists_counterpart length left
    obtain ⟨rfl, alike⟩ := each n _ _ left right
    have storedToo := mem_shownEntries.mp (List.mem_of_getElem? right)
    exact ⟨y, Table.get?_of_mem (sound.keys b) storedToo, alike⟩
  refine .map trivial (fun key => ⟨fun member => ?_, fun member => ?_⟩) ?_
  · obtain ⟨⟨key, x⟩, stored, rfl⟩ := List.mem_map.mp member
    obtain ⟨y, bound, _⟩ := counterpart key x stored
    exact Table.mem_keys_iff.mpr ⟨y, bound⟩
  · obtain ⟨⟨key, y⟩, stored, rfl⟩ := List.mem_map.mp member
    obtain ⟨n, right⟩ := List.getElem?_of_mem (mem_shownEntries.mpr stored)
    obtain ⟨⟨other, x⟩, left⟩ := exists_counterpart length.symm right
    obtain ⟨same, _⟩ := each n _ _ left right
    have stored := mem_shownEntries.mp (List.mem_of_getElem? left)
    have inKeys : other ∈ (store.scope a).bindings.keys := List.mem_map_of_mem stored
    exact same ▸ inKeys
  · intro key x y left right
    obtain ⟨found, bound, alike⟩ := counterpart key x (Table.mem_of_get? left)
    obtain rfl := Option.some.inj (right.symm.trans bound)
    exact alike

/-- Maps are read off their plain forms if the values of their bindings are. -/
theorem decodes_map {a b : Addr} (sound : store.Sound) (ends : (Value.map a).Ends store)
    (endsToo : (Value.map b).Ends store) (plain : (Value.map a).Throughout store (Plain store))
    (plainToo : (Value.map b).Throughout store (Plain store))
    (each : ∀ first ∈ (store.scope a).bindings.entries,
      ∀ second ∈ (store.scope b).bindings.entries,
        Decodes store.chars (Alike structural store) first.2 second.2) :
    Decodes store.chars (Alike structural store) (.map a) (.map b) := by
  intro u v stops stopsToo same
  cases ends with | map isScope free eachEnds =>
  cases endsToo with | map isScopeToo freeToo eachEndsToo =>
  have noQuote : ∀ {a : Addr}, (Value.map a).Throughout store (Plain store) →
      ∀ entry ∈ (store.scope a).bindings.entries, '"' ∉ entry.1.toList :=
    fun plain entry member => plain.self entry.1 (List.mem_map_of_mem member)
  have starts : ∀ entry : String × Value, Starts store.entryChars entry :=
    fun entry => ⟨_, _, rfl, rfl⟩
  rw [chars_map sound.toTyped isScope free eachEnds,
    chars_map sound.toTyped isScopeToo freeToo eachEndsToo] at same
  by_cases empty : (store.shownEntries a).isEmpty = true
  · by_cases emptyToo : (store.shownEntries b).isEmpty = true
    · rw [if_pos empty, if_pos emptyToo] at same
      rw [List.isEmpty_iff] at empty emptyToo
      refine ⟨alike_of_shownEntries sound (by rw [empty, emptyToo]) ?_, ?_⟩
      · intro n first second left
        simp [empty] at left
      · exact (List.cons.inj (List.cons.inj same).2).2
    · rw [if_pos empty, if_neg emptyToo] at same
      simp at same
  · by_cases emptyToo : (store.shownEntries b).isEmpty = true
    · rw [if_neg empty, if_pos emptyToo] at same
      simp at same
    · rw [if_neg empty, if_neg emptyToo] at same
      simp only [List.cons_append, List.append_assoc, List.cons.injEq, true_and] at same
      obtain ⟨length, all, rest⟩ := decodes_joined rfl (by decide)
        (fun first member second memberToo => decodes_entry
          (noQuote plain first (mem_shownEntries.mp member))
          (noQuote plainToo second (mem_shownEntries.mp memberToo))
          (each first (mem_shownEntries.mp member) second (mem_shownEntries.mp memberToo)))
        (fun first _ => starts first) (fun second _ => starts second) same
      exact ⟨alike_of_shownEntries sound length all, (List.cons.inj rest).2⟩

/-- Values without operators, variable names and quotes are read off their plain forms. -/
theorem Ends.decodes (sound : store.Sound) (ends : x.Ends store)
    (plain : x.Throughout store (Plain store)) :
    ∀ {y : Value}, y.Ends store → y.Throughout store (Plain store) →
      Decodes store.chars (Alike structural store) x y := by
  have typed := sound.toTyped
  induction ends with
  | scalar x =>
      intro y endsToo plainToo u v stops stopsToo same
      have marks := (Ends.scalar x).mark?_eq typed endsToo plain.self plainToo.self same
      cases endsToo with
      | scalar y => exact decodes_scalar plain.self plainToo.self marks u v stops stopsToo same
      | tuple | list | map => cases x <;> simp [mark?] at marks
  | @tuple xs each inductionHypothesis =>
      intro y endsToo plainToo u v stops stopsToo same
      have marks := (Ends.tuple each).mark?_eq typed endsToo plain.self plainToo.self same
      cases endsToo with
      | @tuple ys eachToo =>
          rw [chars_tuple typed each, chars_tuple typed eachToo, List.cons_append, List.cons_append,
            List.append_assoc, List.append_assoc] at same
          obtain ⟨length, all, rest⟩ := decodes_joined rfl (by decide)
            (fun i member j memberToo => inductionHypothesis i member (plain.element i member)
              (eachToo j memberToo) (plainToo.element j memberToo))
            (fun i member => (each i member).starts typed (plain.element i member).self)
            (fun j member => (eachToo j member).starts typed (plainToo.element j member).self)
            (List.cons.inj same).2
          exact ⟨.tuple length all, rest⟩
      | scalar y => cases y <;> simp [mark?] at marks
      | list | map => simp [mark?] at marks
  | @list a isList free each inductionHypothesis =>
      intro y endsToo plainToo u v stops stopsToo same
      have marks :=
        (Ends.list isList free each).mark?_eq typed endsToo plain.self plainToo.self same
      cases endsToo with
      | @list b isListToo freeToo eachToo =>
          rw [chars_list typed isList free each, chars_list typed isListToo freeToo eachToo,
            List.cons_append, List.cons_append, List.append_assoc, List.append_assoc] at same
          obtain ⟨length, all, rest⟩ := decodes_joined rfl (by decide)
            (fun i member j memberToo => inductionHypothesis i member (plain.item i member)
              (eachToo j memberToo) (plainToo.item j memberToo))
            (fun i member => (each i member).starts typed (plain.item i member).self)
            (fun j member => (eachToo j member).starts typed (plainToo.item j member).self)
            (List.cons.inj same).2
          exact ⟨.list length all, rest⟩
      | scalar y => cases y <;> simp [mark?] at marks
      | tuple | map => simp [mark?] at marks
  | @map a isScope free each inductionHypothesis =>
      intro y endsToo plainToo u v stops stopsToo same
      have marks :=
        (Ends.map isScope free each).mark?_eq typed endsToo plain.self plainToo.self same
      cases endsToo with
      | map isScopeToo freeToo eachToo =>
          refine decodes_map sound (.map isScope free each) (.map isScopeToo freeToo eachToo) plain
            plainToo (fun first member second memberToo => ?_) u v stops stopsToo same
          exact inductionHypothesis first member (plain.binding first member)
            (eachToo second memberToo) (plainToo.binding second memberToo)
      | scalar y => cases y <;> simp [mark?] at marks
      | tuple | list => simp [mark?] at marks

end Value

end ScopedValues
