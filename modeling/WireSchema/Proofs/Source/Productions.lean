import WireSchema.Proofs.Source.Parsing

/-!
# Productions of the grammar

Every production reads back what its spellings write. An alternative in front of the right one
refuses: its opening word is not the one at hand, or that word is the name of a declared type, or the
front of such a name, and what follows is not what the alternative asks for.

## Main result

* `parseAll_spelling`: the declarations of a spelled text are the declarations it spells.
-/

namespace WireSchema.Source

open WireSchema.Source.Parser

/-! ### Entries -/

theorem parses_bracketed (name : String) (x : List Token) :
    Parses bracketed (bracketTokens name ++ x) name x :=
  (Parses.mark "<" _).bind ((Parses.ident name _).bind ((Parses.mark ">" x).bind (.pure _ _)))

theorem parses_length (length : Option String) (x : List Token) :
    Parses lengthSuffix (lengthTokens length ++ .mark ">" :: x) length (.mark ">" :: x) := by
  cases length with
  | none =>
    have next : NextMark [">"] (.mark ">" :: x) := .head (by decide) x
    have noComma : Refuses (word ",") (.mark ">" :: x) := .mark next (by decide) (by decide)
    exact .opt_none noComma.bind
  | some name => exact .opt_some ((Parses.mark "," _).bind (.ident name _))

/-- What may stand after an entry. -/
def entryEnds : List String := [",", "\x7d", "]"]

theorem parses_enumEntry (entry : String × Option Numeral) (x : List Token)
    (next : NextMark entryEnds x) : Parses enumEntry (entryTokens entry ++ x) entry x := by
  obtain ⟨name, _ | id⟩ := entry
  · have noId : Refuses (word "=") x := .mark next (by decide) (by decide)
    exact (Parses.ident name x).bind ((Parses.opt_none noId.bind).bind (.pure _ _))
  · have given : Parses (do word "="; numeral) (.mark "=" :: .number id :: x) id x :=
      (Parses.mark "=" _).bind (.numeral id x)
    exact (Parses.ident name _).bind (given.opt_some.bind (.pure _ _))

theorem parses_slot (slot : String × Numeral) (x : List Token) :
    Parses packedSlot (slotTokens slot ++ x) slot x :=
  (Parses.ident slot.1 _).bind
    ((Parses.mark ":" _).bind ((Parses.numeral slot.2 x).bind (.pure _ _)))

theorem parses_flag (entry : String × Numeral) (x : List Token) :
    Parses flagEntry (flagTokens entry ++ x) entry x :=
  (Parses.ident entry.1 _).bind
    ((Parses.mark "=" _).bind ((Parses.numeral entry.2 x).bind (.pure _ _)))

theorem refuses_close {α : Type} {f : String → Parser α} (x : List Token) :
    Refuses (ident >>= f) (.mark "\x7d" :: x) := by
  have next : NextMark entryEnds (.mark "\x7d" :: x) := .head (by decide) x
  exact (Refuses.ident next).bind

/-- A declaration with documentation in front of it is not there where a brace closes. -/
theorem refuses_documented {α : Type} {f : List String → Parser α} {bound : Nat} {x : List Token}
    (stop : Refuses (f []) (.mark "\x7d" :: x)) :
    Refuses (many doc bound >>= f) (.mark "\x7d" :: x) := by
  have next : NextMark entryEnds (.mark "\x7d" :: x) := .head (by decide) x
  exact (Parses.many_nil (.doc_mark next) bound).refuses stop

/-! ### Fields and variants -/

/-- What may stand after a type. -/
def typeEnds : List String := [";", ">", ",", ")"]

/-- The parser reads every type that is written with at most `bound` tokens. -/
def ReadsTypes (type : Parser TypeSpec) (bound : Nat) : Prop :=
  ∀ (t : TypeSpec) (ts : List Token), t.Writes ts → ts.length ≤ bound →
    ∀ x, NextMark typeEnds x → Parses type (ts ++ x) t x

section Fields

variable {type : Parser TypeSpec} {bound : Nat}

theorem parses_field (types : ReadsTypes type bound) (docs : List String) (name : String)
    {t : TypeSpec} {inner : List Token} (writes : t.Writes inner) (few : docs.length ≤ bound)
    (small : inner.length ≤ bound) (x : List Token) :
    Parses (field bound type) (docs.map .doc ++ .name name :: .mark ":" :: (inner ++ .mark ";" :: x))
      ⟨docs, name, t⟩ x := by
  have ofType := types t inner writes small (.mark ";" :: x) (.head (by decide) x)
  exact (Parses.docs (.doc_name name _) docs few).bind ((Parses.ident name _).bind
    ((Parses.mark ":" _).bind (ofType.bind ((Parses.mark ";" x).bind (.pure _ _)))))

theorem parses_fields (types : ReadsTypes type bound) (x : List Token) :
    ∀ {fields : List (FieldSpec TypeSpec)} {ts : List Token} (most : Nat),
      WritesFields fields ts → ts.length ≤ bound → ts.length ≤ most →
        Parses (many (field bound type) most) (ts ++ .mark "\x7d" :: x) fields (.mark "\x7d" :: x)
  | [], _, most, writes, _, _ => by
    cases writes
    have stop : Refuses (field bound type) (.mark "\x7d" :: x) :=
      refuses_documented (refuses_close x)
    exact .many_nil stop most
  | ⟨docs, name, t⟩ :: rest, _, most, writes, small, few => by
    obtain ⟨inner, others, ofType, ofRest, rfl⟩ := writes
    simp only [List.length_append, List.length_map, List.length_cons] at small few
    cases most with
    | zero => omega
    | succ most =>
      have first := parses_field types docs name ofType (by omega) (by omega)
        (others ++ .mark "\x7d" :: x)
      have later := parses_fields types x most ofRest (by omega) (by omega)
      simp only [List.append_assoc, List.cons_append]
      exact first.many_cons later

/-- A tag is told from the arrow after a variant without one by what follows the first sign. -/
theorem parses_tag (tag : Option LiteralSpec) (x : List Token) :
    Parses (opt (do word "="; literal)) (tagTokens tag ++ .mark "=>" :: x) tag
      (.mark "=>" :: x) := by
  cases tag with
  | none =>
    refine .opt_none fun text spelled => ?_
    obtain ⟨cs, rest, ⟨rfl, _⟩, _, _, opened⟩ := spelled.open
    have taken : word "=" text = some ((), '>' :: rest) := by
      rw [word, opened]
      rfl
    exact (bind_some taken).trans (literal_refuses_angle rest)
  | some l => exact .opt_some ((Parses.mark "=" _).bind (.literal l _))

theorem parses_arms (types : ReadsTypes type bound) :
    ∀ {arms : List (ArmSpec TypeSpec)} {items : List (List Token)},
      WritesArms arms items → (∀ ts ∈ items, ts.length ≤ bound) →
        EachParses (arm bound type) entryEnds arms items
  | [], items, writes, _ => writes
  | ⟨name, tag, fields⟩ :: rest, items, writes, small => by
    obtain ⟨docs, inner, others, ofFields, ofRest, rfl⟩ := writes
    have short := small _ (List.mem_cons_self ..)
    have later := parses_arms types ofRest fun ts member => small ts (List.mem_cons_of_mem _ member)
    refine ⟨_, _, rfl, fun x _ => ?_, later⟩
    simp only [bracedTokens, List.length_append, List.length_map, List.length_cons] at short
    have body := parses_fields types x bound ofFields (by omega) (by omega)
    simp only [bracedTokens, List.append_assoc, List.cons_append, List.nil_append]
    exact (Parses.docs (.doc_name name _) docs (by omega)).bind ((Parses.ident name _).bind
      ((parses_tag tag _).bind ((Parses.mark "=>" _).bind ((Parses.mark "\x7b" _).bind
        (body.bind ((Parses.mark "\x7d" x).bind (.pure _ _)))))))

theorem parses_parts (types : ReadsTypes type bound) :
    ∀ {parts : List TypeSpec} {items : List (List Token)},
      WritesParts parts items → (∀ ts ∈ items, ts.length ≤ bound) →
        EachParses type typeEnds parts items
  | [], items, writes, _ => writes
  | part :: rest, items, writes, small => by
    obtain ⟨inner, others, ofPart, ofRest, rfl⟩ := writes
    have short := small _ (List.mem_cons_self ..)
    have later := parses_parts types ofRest fun ts member => small ts (List.mem_cons_of_mem _ member)
    exact ⟨_, _, rfl, types part inner ofPart short, later⟩

end Fields

theorem separated_entry {items : List (List Token)} {ts : List Token} (member : ts ∈ items) :
    ts.length ≤ (separated items).length := by
  have inside : ts <:+: separated items := by
    cases items with
    | nil => cases member
    | cons first rest =>
      rcases List.mem_cons.mp member with rfl | later
      · exact (List.prefix_append _ _).isInfix
      · obtain ⟨front, back, rfl⟩ := List.append_of_mem later
        refine ⟨first ++ front.flatMap (.mark "," :: ·) ++ [.mark ","],
          back.flatMap (.mark "," :: ·), ?_⟩
        simp [separated]
  exact inside.length_le

theorem Listed.entry {items : List (List Token)} {ts inner : List Token}
    (listed : Listed items inner) (member : ts ∈ items) : ts.length ≤ inner.length := by
  have short := separated_entry member
  rcases listed with rfl | ⟨_, rfl⟩
  · exact short
  · rw [List.length_append]
    omega

/-! ### Types -/

theorem writes_nonempty {t : TypeSpec} {ts : List Token} (writes : t.Writes ts) : ts ≠ [] := by
  cases t <;> simp only [TypeSpec.Writes] at writes <;> grind

/-- The words that open types. -/
def typeWords : List String :=
  ["optional", "list", "map", "enum", "union", "struct", "merge", "packed", "flags", "literal",
    "bytes"]

theorem typeWords_letters : ∀ w ∈ typeWords, ∀ c ∈ w.toList, isIdentRest c = true := by
  have letters : ∀ w ∈ typeWords, w.toList.all isIdentRest = true := by decide
  exact fun w member => List.all_eq_true.mp (letters w member)

theorem typeWords_apart :
    ∀ w ∈ typeWords, ∀ s ∈ typeWords, w ≠ s → ¬w.toList <+: s.toList := by decide

/-- An alternative refuses the opening word of another. -/
theorem refuses_other {α : Type} {f : Unit → Parser α} {w s : String} (isWord : w ∈ typeWords)
    (other : s ∈ typeWords ∧ w ≠ s) (x : List Token) : Refuses (word w >>= f) (.name s :: x) :=
  (Refuses.keyword (typeWords_letters w isWord)
    (typeWords_apart w isWord s other.1 other.2) x).bind

/-- The marks after the opening words of types. -/
def openings : List String := ["<", "(", "[", "\x7b"]

/-- An alternative refuses a name that starts like its opening word, because of what it asks for
after the word. -/
theorem refuses_named {α : Type} {f : Unit → Parser α} {w s : String} (isWord : w ∈ typeWords)
    {x : List Token} (next : NextMark typeEnds x)
    (asks : ∀ rest, (∀ m ∈ openings, word m rest = none) → f () rest = none) :
    Refuses (word w >>= f) (.name s :: x) := by
  intro text spelled
  rcases keyword_cases (typeWords_letters w isWord) spelled with refused | ⟨rest, run, _, left⟩
  · exact bind_none refused
  · refine (bind_some run).trans (asks rest fun m isOpening => ?_)
    rcases left with spelled' | ⟨c, more, rfl, ident⟩
    · -- The name is the word, and the type ends.
      have nonempty : ∀ m ∈ openings, m.toList ≠ [] := by decide
      have apart : ∀ m ∈ openings, ∀ e ∈ typeEnds, e.toList.head? ≠ m.toList.head? := by decide
      exact Refuses.mark next (nonempty m isOpening) (apart m isOpening) rest spelled'
    · -- The name goes on.
      have isMark : ∀ m ∈ openings, m ∈ marks := by decide
      exact mark_refuses_ident (isMark m isOpening) ident more

theorem parses_named {bound : Nat} (s : String) {x : List Token} (next : NextMark typeEnds x) :
    Parses (typeSpec (bound + 1)) (.name s :: x) (.named s) x := by
  have bracket : ∀ {α : Type} {f : String → Parser α} (rest : List Char),
      (∀ m ∈ openings, word m rest = none) → (bracketed >>= f) rest = none :=
    fun rest refused => bind_none (bind_none (refused "<" (by decide)))
  have mark : ∀ {α : Type} {f : Unit → Parser α} {m : String}, m ∈ openings → ∀ rest : List Char,
      (∀ m ∈ openings, word m rest = none) → (word m >>= f) rest = none :=
    fun isOpening rest refused => bind_none (refused _ isOpening)
  have backed : ∀ {α : Type} {f : Option String → Unit → Parser α} (rest : List Char),
      (∀ m ∈ openings, word m rest = none) →
        (opt bracketed >>= fun b => word "(" >>= f b) rest = none := by
    intro α f rest refused
    have none_ : opt bracketed rest = some (none, rest) := by
      have := bind_none (f := fun _ => do let name ← ident; word ">"; return name)
        (refused "<" (by decide))
      rw [opt, show bracketed rest = none from this]
    exact (bind_some none_).trans (bind_none (refused "(" (by decide)))
  rw [typeSpec]
  refine (refuses_named (by decide) next (mark (by decide))).orElse ?_
  refine (refuses_named (by decide) next (mark (by decide))).orElse ?_
  refine (refuses_named (by decide) next (mark (by decide))).orElse ?_
  refine (refuses_named (by decide) next bracket).orElse ?_
  refine (refuses_named (by decide) next (mark (by decide))).orElse ?_
  refine (refuses_named (by decide) next (mark (by decide))).orElse ?_
  refine (refuses_named (by decide) next (mark (by decide))).orElse ?_
  refine (refuses_named (by decide) next bracket).orElse ?_
  refine (refuses_named (by decide) next bracket).orElse ?_
  refine (refuses_named (by decide) next backed).orElse ?_
  refine (refuses_named (by decide) next (mark (by decide))).orElse ?_
  exact (Parses.ident s x).bind (.pure _ _)

section Types

variable {bound : Nat}

theorem parses_order {order : Option (List String)} (some_ : order ≠ some []) {x : List Token}
    (next : NextMark typeEnds x) (small : (orderTokens order).length ≤ bound) :
    Parses (opt (do
      word "\x7b"
      let names ← commaSeparated bound ident
      word "\x7d"
      return names)) (orderTokens order ++ x) order x := by
  cases order with
  | none =>
    have noBrace : Refuses (word "\x7b") x := .mark next (by decide) (by decide)
    exact .opt_none noBrace.bind
  | some names =>
    have someNames : names ≠ [] := fun empty => some_ (congrArg some empty)
    have close : NextMark entryEnds (.mark "\x7d" :: x) := .head (by decide) x
    have last : NextMark ["\x7d"] (.mark "\x7d" :: x) := .head (by decide) x
    have noComma : Refuses (word ",") (.mark "\x7d" :: x) := .mark last (by decide) (by decide)
    simp only [orderTokens, bracedTokens, List.length_cons, List.length_append] at small
    have list := parses_separated (by decide) close noComma.bind
      (eachParses_map (fun name y _ => Parses.ident name y) names) someNames
      (Nat.le_of_add_right_le (Nat.le_of_succ_le small))
    simp only [orderTokens, bracedTokens, List.cons_append, List.append_assoc, List.nil_append]
    exact .opt_some ((Parses.mark "\x7b" _).bind (list.bind
      ((Parses.mark "\x7d" x).bind (.pure _ _))))

theorem parses_optional (types : ReadsTypes (typeSpec bound) bound) {value : TypeSpec}
    {inner : List Token} (writes : value.Writes inner) (small : inner.length ≤ bound)
    (x : List Token) : Parses (typeSpec (bound + 1))
      (.name "optional" :: .mark "<" :: (inner ++ .mark ">" :: x)) (.optional value) x := by
  have ofValue := types value inner writes small (.mark ">" :: x) (.head (by decide) x)
  rw [typeSpec]
  apply Parses.left
  exact (Parses.keyword "optional" _).bind ((Parses.mark "<" _).bind
    (ofValue.bind ((Parses.mark ">" x).bind (.pure _ _))))

theorem lengthTokens_next (length : Option String) (x : List Token) :
    NextMark typeEnds (lengthTokens length ++ .mark ">" :: x) := by
  cases length with
  | none => exact .head (by decide) x
  | some name => exact .head (by decide) _

theorem parses_list (types : ReadsTypes (typeSpec bound) bound) {item : TypeSpec}
    {length : Option String} {inner : List Token} (writes : item.Writes inner)
    (small : inner.length ≤ bound) (x : List Token) : Parses (typeSpec (bound + 1))
      (.name "list" :: .mark "<" :: (inner ++ (lengthTokens length ++ .mark ">" :: x)))
      (.list item length) x := by
  have ofItem := types item inner writes small _ (lengthTokens_next length x)
  rw [typeSpec]
  repeat refine (refuses_other (by decide) (by decide) _).orElse ?_
  apply Parses.left
  exact (Parses.keyword "list" _).bind ((Parses.mark "<" _).bind (ofItem.bind
    ((parses_length length x).bind ((Parses.mark ">" x).bind (.pure _ _)))))

theorem parses_map (types : ReadsTypes (typeSpec bound) bound) {key value : TypeSpec}
    {length : Option String} {first second : List Token} (ofKey : key.Writes first)
    (ofValue : value.Writes second) (small : first.length + second.length ≤ bound)
    (x : List Token) : Parses (typeSpec (bound + 1))
      (.name "map" :: .mark "<" :: (first ++ .mark "," ::
        (second ++ (lengthTokens length ++ .mark ">" :: x)))) (.map key value length) x := by
  have keyRun := types key first ofKey (by omega) (.mark "," ::
    (second ++ (lengthTokens length ++ .mark ">" :: x))) (.head (by decide) _)
  have valueRun := types value second ofValue (by omega) _ (lengthTokens_next length x)
  rw [typeSpec]
  repeat refine (refuses_other (by decide) (by decide) _).orElse ?_
  apply Parses.left
  exact (Parses.keyword "map" _).bind ((Parses.mark "<" _).bind (keyRun.bind
    ((Parses.mark "," _).bind (valueRun.bind
      ((parses_length length x).bind ((Parses.mark ">" x).bind (.pure _ _)))))))

theorem parses_enum {backing : String} {entries : List (String × Option Numeral)}
    {inner : List Token} (listed : Listed (entries.map entryTokens) inner)
    (small : inner.length ≤ bound) (x : List Token) : Parses (typeSpec (bound + 1))
      (.name "enum" :: (bracketTokens backing ++ (bracedTokens inner ++ x)))
      (.enum backing entries) x := by
  have body := parses_entries (by decide) (by decide) (fun y => refuses_close y)
    (x := x) (eachParses_map parses_enumEntry entries) listed small
  rw [typeSpec]
  repeat refine (refuses_other (by decide) (by decide) _).orElse ?_
  apply Parses.left
  exact (Parses.keyword "enum" _).bind ((parses_bracketed backing _).bind (body.bind (.pure _ _)))

theorem parses_union (types : ReadsTypes (typeSpec bound) bound) {tagField : String}
    {tag : TypeSpec} {arms : List (ArmSpec TypeSpec)} {first inner : List Token}
    {items : List (List Token)} (ofTag : tag.Writes first) (ofArms : WritesArms arms items)
    (listed : Listed items inner) (small : first.length + inner.length ≤ bound) (x : List Token) :
    Parses (typeSpec (bound + 1)) (.name "union" :: .mark "<" :: .name tagField :: .mark ":" ::
      (first ++ .mark ">" :: (bracedTokens inner ++ x))) (.union tagField tag arms) x := by
  have tagRun := types tag first ofTag (by omega) (.mark ">" :: (bracedTokens inner ++ x))
    (.head (by decide) _)
  have short : inner.length ≤ bound := by omega
  have each := parses_arms types ofArms fun ts member => Nat.le_trans (listed.entry member) short
  have body := parses_entries (by decide) (by decide)
    (fun y => refuses_documented (refuses_close y)) (x := x) each listed short
  rw [typeSpec]
  repeat refine (refuses_other (by decide) (by decide) _).orElse ?_
  apply Parses.left
  exact (Parses.keyword "union" _).bind ((Parses.mark "<" _).bind ((Parses.ident tagField _).bind
    ((Parses.mark ":" _).bind (tagRun.bind ((Parses.mark ">" _).bind (body.bind (.pure _ _)))))))

theorem parses_struct (types : ReadsTypes (typeSpec bound) bound)
    {fields : List (FieldSpec TypeSpec)} {inner : List Token} (writes : WritesFields fields inner)
    (small : inner.length ≤ bound) (x : List Token) : Parses (typeSpec (bound + 1))
      (.name "struct" :: .mark "\x7b" :: (inner ++ .mark "\x7d" :: x)) (.struct fields) x := by
  have body := parses_fields types x bound writes small small
  rw [typeSpec]
  repeat refine (refuses_other (by decide) (by decide) _).orElse ?_
  apply Parses.left
  exact (Parses.keyword "struct" _).bind ((Parses.mark "\x7b" _).bind (body.bind
    ((Parses.mark "\x7d" x).bind (.pure _ _))))

theorem parses_merge (types : ReadsTypes (typeSpec bound) bound) {parts : List TypeSpec}
    {items : List (List Token)} (some_ : parts ≠ []) (writes : WritesParts parts items)
    (small : (separated items).length ≤ bound) (x : List Token) : Parses (typeSpec (bound + 1))
      (.name "merge" :: .mark "(" :: (separated items ++ .mark ")" :: x)) (.merge parts) x := by
  have each := parses_parts types writes fun ts member => Nat.le_trans (separated_entry member) small
  have next : NextMark typeEnds (.mark ")" :: x) := .head (by decide) x
  have last : NextMark [")"] (.mark ")" :: x) := .head (by decide) x
  have noComma : Refuses (word ",") (.mark ")" :: x) := .mark last (by decide) (by decide)
  have list := parses_separated (by decide) next noComma.bind each some_ small
  rw [typeSpec]
  repeat refine (refuses_other (by decide) (by decide) _).orElse ?_
  apply Parses.left
  exact (Parses.keyword "merge" _).bind ((Parses.mark "(" _).bind (list.bind
    ((Parses.mark ")" x).bind (.pure _ _))))

theorem parses_packed {backing : String} {slots : List (String × Numeral)}
    {order : Option (List String)} (some_ : slots ≠ []) (someOrder : order ≠ some [])
    {x : List Token} (next : NextMark typeEnds x)
    (small : (separated (slots.map slotTokens)).length + (orderTokens order).length ≤ bound) :
    Parses (typeSpec (bound + 1)) (.name "packed" :: (bracketTokens backing ++ .mark "[" ::
      (separated (slots.map slotTokens) ++ .mark "]" :: (orderTokens order ++ x))))
      (.packed backing slots order) x := by
  have slotsEnd : NextMark entryEnds (.mark "]" :: (orderTokens order ++ x)) :=
    .head (by decide) _
  have bracketEnd : NextMark ["]"] (.mark "]" :: (orderTokens order ++ x)) := .head (by decide) _
  have noComma : Refuses (word ",") (.mark "]" :: (orderTokens order ++ x)) :=
    .mark bracketEnd (by decide) (by decide)
  have short : (separated (slots.map slotTokens)).length ≤ bound := by omega
  have slotsRun := parses_separated (by decide) slotsEnd noComma.bind
    (eachParses_map (fun slot y _ => parses_slot slot y) slots) some_ short
  rw [typeSpec]
  repeat refine (refuses_other (by decide) (by decide) _).orElse ?_
  apply Parses.left
  exact (Parses.keyword "packed" _).bind ((parses_bracketed backing _).bind
    ((Parses.mark "[" _).bind (slotsRun.bind ((Parses.mark "]" _).bind
      ((parses_order someOrder next (by omega)).bind (.pure _ _))))))

theorem parses_flags {backing : String} {entries : List (String × Numeral)} {inner : List Token}
    (some_ : entries ≠ []) (listed : Listed (entries.map flagTokens) inner)
    (small : inner.length ≤ bound) (x : List Token) : Parses (typeSpec (bound + 1))
      (.name "flags" :: (bracketTokens backing ++ (bracedTokens inner ++ x)))
      (.flags backing entries) x := by
  have each : EachParses flagEntry entryEnds entries (entries.map flagTokens) :=
    eachParses_map (fun entry y _ => parses_flag entry y) entries
  have list := parses_ended (by decide) (by decide) (by decide) (refuses_close x) each some_ listed
    small
  rw [bracedTokens, List.cons_append, List.append_assoc, List.cons_append, List.nil_append]
  rw [typeSpec]
  repeat refine (refuses_other (by decide) (by decide) _).orElse ?_
  apply Parses.left
  exact (Parses.keyword "flags" _).bind ((parses_bracketed backing _).bind
    ((Parses.mark "\x7b" _).bind (list.bind ((Parses.mark "\x7d" x).bind (.pure _ _)))))

theorem parses_fixed (backing : Option String) (value : LiteralSpec) (x : List Token) :
    Parses (typeSpec (bound + 1)) (.name "literal" :: ((backing.map bracketTokens).getD [] ++
      (.mark "(" :: literalToken value :: .mark ")" :: x))) (.literal backing value) x := by
  have backingRun : Parses (opt bracketed) ((backing.map bracketTokens).getD [] ++
      (.mark "(" :: literalToken value :: .mark ")" :: x)) backing
      (.mark "(" :: literalToken value :: .mark ")" :: x) := by
    cases backing with
    | none =>
      have next : NextMark ["("] (.mark "(" :: literalToken value :: .mark ")" :: x) :=
        .head (by decide) _
      have noAngle : Refuses (word "<") (.mark "(" :: literalToken value :: .mark ")" :: x) :=
        .mark next (by decide) (by decide)
      exact .opt_none noAngle.bind
    | some name => exact .opt_some (parses_bracketed name _)
  rw [typeSpec]
  repeat refine (refuses_other (by decide) (by decide) _).orElse ?_
  apply Parses.left
  exact (Parses.keyword "literal" _).bind (backingRun.bind ((Parses.mark "(" _).bind
    ((Parses.literal value _).bind ((Parses.mark ")" x).bind (.pure _ _)))))

theorem parses_bytes (length : Numeral) (x : List Token) : Parses (typeSpec (bound + 1))
    (.name "bytes" :: .mark "[" :: .number length :: .mark "]" :: x) (.bytes length) x := by
  rw [typeSpec]
  repeat refine (refuses_other (by decide) (by decide) _).orElse ?_
  apply Parses.left
  exact (Parses.keyword "bytes" _).bind ((Parses.mark "[" _).bind
    ((Parses.numeral length _).bind ((Parses.mark "]" x).bind (.pure _ _))))

end Types

/-- A bound on the number of tokens is a bound on the nesting. -/
theorem readsTypes (bound : Nat) : ReadsTypes (typeSpec bound) bound := by
  induction bound with
  | zero =>
    intro t ts writes small
    have empty : ts = [] := List.eq_nil_of_length_eq_zero (Nat.le_zero.mp small)
    exact absurd empty (writes_nonempty writes)
  | succ bound types =>
    intro t ts writes small x next
    cases t with
    | optional value =>
      obtain ⟨inner, ofValue, rfl⟩ := writes
      simp only [List.length_cons, List.length_append] at small
      simp only [List.cons_append, List.append_assoc, List.nil_append]
      exact parses_optional types ofValue (by omega) x
    | list item length =>
      obtain ⟨inner, ofItem, rfl⟩ := writes
      simp only [List.length_cons, List.length_append] at small
      simp only [List.cons_append, List.append_assoc, List.nil_append]
      exact parses_list types ofItem (by omega) x
    | map key value length =>
      obtain ⟨first, second, ofKey, ofValue, rfl⟩ := writes
      simp only [List.length_cons, List.length_append] at small
      simp only [List.cons_append, List.append_assoc, List.nil_append]
      exact parses_map types ofKey ofValue (by omega) x
    | enum backing entries =>
      obtain ⟨inner, listed, rfl⟩ := writes
      simp only [bracedTokens, List.length_cons, List.length_append] at small
      simp only [List.cons_append, List.append_assoc]
      exact parses_enum listed (by omega) x
    | union tagField tag arms =>
      obtain ⟨first, items, inner, ofTag, ofArms, listed, rfl⟩ := writes
      simp only [bracedTokens, List.length_cons, List.length_append] at small
      simp only [List.cons_append, List.append_assoc]
      exact parses_union types ofTag ofArms listed (by omega) x
    | struct fields =>
      obtain ⟨inner, ofFields, rfl⟩ := writes
      simp only [bracedTokens, List.length_cons, List.length_append] at small
      simp only [bracedTokens, List.cons_append, List.append_assoc, List.nil_append]
      exact parses_struct types ofFields (by omega) x
    | merge parts =>
      obtain ⟨items, some_, ofParts, rfl⟩ := writes
      simp only [List.length_cons, List.length_append] at small
      simp only [List.cons_append, List.append_assoc, List.nil_append]
      exact parses_merge types some_ ofParts (by omega) x
    | packed backing slots order =>
      obtain ⟨some_, someOrder, rfl⟩ := writes
      simp only [List.length_cons, List.length_append] at small
      simp only [List.cons_append, List.append_assoc]
      exact parses_packed some_ someOrder next (by omega)
    | flags backing entries =>
      obtain ⟨inner, some_, listed, rfl⟩ := writes
      simp only [bracedTokens, List.length_cons, List.length_append] at small
      simp only [List.cons_append, List.append_assoc]
      exact parses_flags some_ listed (by omega) x
    | literal backing value =>
      cases writes
      simp only [List.cons_append, List.append_assoc, List.nil_append]
      exact parses_fixed backing value x
    | bytes length =>
      cases writes
      exact parses_bytes length x
    | named name =>
      cases writes
      exact parses_named name next

/-! ### Declarations -/

theorem parses_packets (bound : Nat) (x : List Token) :
    ∀ {packets : List PacketSpec} {ts : List Token} (most : Nat),
      WritesPackets packets ts → ts.length ≤ bound → ts.length ≤ most →
        Parses (many (packetSpec bound) most) (ts ++ .mark "\x7d" :: x) packets
          (.mark "\x7d" :: x)
  | [], _, most, writes, _, _ => by
    cases writes
    have next : NextMark ["\x7d"] (.mark "\x7d" :: x) := .head (by decide) x
    have noPacket : Refuses (word "packet") (.mark "\x7d" :: x) :=
      .mark next (by decide) (by decide)
    have stop : Refuses (packetSpec bound) (.mark "\x7d" :: x) := refuses_documented noPacket.bind
    exact .many_nil stop most
  | ⟨docs, name, fields⟩ :: rest, _, most, writes, small, few => by
    obtain ⟨inner, others, ofFields, ofRest, rfl⟩ := writes
    simp only [bracedTokens, List.length_append, List.length_map, List.length_cons] at small few
    cases most with
    | zero => omega
    | succ most =>
      have body := parses_fields (readsTypes bound) (others ++ .mark "\x7d" :: x) bound ofFields
        (by omega) (by omega)
      have later := parses_packets bound x most ofRest (by omega) (by omega)
      refine Parses.many_cons ?_ later
      simp only [bracedTokens, List.append_assoc, List.cons_append, List.nil_append]
      exact (Parses.docs (.doc_name "packet" _) docs (by omega)).bind
        ((Parses.keyword "packet" _).bind ((Parses.ident name _).bind ((Parses.mark "\x7b" _).bind
          (body.bind ((Parses.mark "\x7d" _).bind (.pure _ _))))))

theorem parses_flowName (flow : Flow) (x : List Token) :
    Parses flowName (.name flow.name :: x) flow x := by
  cases flow with
  | serverbound => exact .left ((Parses.keyword "serverbound" x).bind (.pure _ _))
  | clientbound =>
    have other : Refuses (word "serverbound") (.name "clientbound" :: x) :=
      .keyword (List.all_eq_true.mp (by decide)) (by decide) x
    exact other.bind.orElse ((Parses.keyword "clientbound" x).bind (.pure _ _))

theorem parses_flows (bound : Nat) (x : List Token) :
    ∀ {flows : List FlowSpec} {ts : List Token} (most : Nat),
      WritesFlows flows ts → ts.length ≤ bound → ts.length ≤ most →
        Parses (many (flowSpec bound) most) (ts ++ .mark "\x7d" :: x) flows (.mark "\x7d" :: x)
  | [], _, most, writes, _, _ => by
    cases writes
    have next : NextMark ["\x7d"] (.mark "\x7d" :: x) := .head (by decide) x
    have noServer : Refuses (word "serverbound") (.mark "\x7d" :: x) :=
      .mark next (by decide) (by decide)
    have noClient : Refuses (word "clientbound") (.mark "\x7d" :: x) :=
      .mark next (by decide) (by decide)
    have stop : Refuses (flowSpec bound) (.mark "\x7d" :: x) :=
      (noServer.bind.both noClient.bind).bind
    exact .many_nil stop most
  | ⟨flow, packets⟩ :: rest, _, most, writes, small, few => by
    obtain ⟨inner, others, ofPackets, ofRest, rfl⟩ := writes
    simp only [bracedTokens, List.length_append, List.length_cons] at small few
    cases most with
    | zero => omega
    | succ most =>
      have body := parses_packets bound (others ++ .mark "\x7d" :: x) bound ofPackets
        (by omega) (by omega)
      have later := parses_flows bound x most ofRest (by omega) (by omega)
      refine Parses.many_cons ?_ later
      simp only [bracedTokens, List.append_assoc, List.cons_append, List.nil_append]
      exact (parses_flowName flow _).bind ((Parses.mark "\x7b" _).bind
        (body.bind ((Parses.mark "\x7d" _).bind (.pure _ _))))

theorem refuses_end {α : Type} {f : Unit → Parser α} {w : String} (some_ : w.toList ≠ [])
    (bound : Nat) : Refuses (many doc bound >>= fun _ => word w >>= f) [] := by
  have noDoc : Refuses doc [] := fun _ spelled => doc_refuses_end spelled
  have noWord : Refuses (word w) [] := fun _ spelled => word_refuses_end some_ spelled
  exact (Parses.many_nil noDoc bound).refuses noWord.bind

/-- A declaration with documentation and another keyword. -/
theorem refuses_declared {α : Type} {f : Unit → Parser α} {w s : String}
    (letters : ∀ c ∈ w.toList, isIdentRest c = true) (other : ¬w.toList <+: s.toList)
    {docs : List String} {bound : Nat} (few : docs.length ≤ bound) (x : List Token) :
    Refuses (many doc bound >>= fun _ => word w >>= f) (docs.map .doc ++ .name s :: x) :=
  (Parses.docs (.doc_name s x) docs few).refuses (Refuses.keyword letters other x).bind

/-- A declaration. -/
def item (bound : Nat) : Parser Item :=
  typeDecl bound "type" false <|> typeDecl bound "export" true <|> protocolDecl bound

theorem parses_typeDecl {keyword : String} {exported : Bool} {bound : Nat} {docs : List String}
    {name : String} {type : TypeSpec} {inner : List Token} (writes : type.Writes inner)
    (few : docs.length ≤ bound) (small : inner.length ≤ bound) (x : List Token) :
    Parses (typeDecl bound keyword exported) (docs.map .doc ++ .name keyword :: .name name ::
      .mark "=" :: (inner ++ .mark ";" :: x)) (.type ⟨exported, name, type⟩) x := by
  have body := readsTypes bound type inner writes small (.mark ";" :: x) (.head (by decide) x)
  exact (Parses.docs (.doc_name keyword _) docs few).bind ((Parses.keyword keyword _).bind
    ((Parses.ident name _).bind ((Parses.mark "=" _).bind (body.bind
      ((Parses.mark ";" x).bind (.pure _ _))))))

theorem parses_item {d : Item} {ts : List Token} (writes : d.Writes ts) {bound : Nat}
    (small : ts.length ≤ bound) (x : List Token) : Parses (item bound) (ts ++ x) d x := by
  cases d with
  | type d =>
    obtain ⟨exported, name, type⟩ := d
    obtain ⟨docs, inner, ofType, rfl⟩ := writes
    simp only [List.length_append, List.length_map, List.length_cons] at small
    simp only [List.append_assoc, List.cons_append, List.nil_append]
    cases exported with
    | false => exact .left (parses_typeDecl ofType (by omega) (by omega) x)
    | true =>
      simp only [if_true]
      refine (refuses_declared (List.all_eq_true.mp (by decide)) (by decide) (by omega) _).orElse ?_
      exact .left (parses_typeDecl ofType (by omega) (by omega) x)
  | protocol d =>
    obtain ⟨name, flows⟩ := d
    obtain ⟨docs, inner, ofFlows, rfl⟩ := writes
    simp only [bracedTokens, List.length_append, List.length_map, List.length_cons] at small
    simp only [bracedTokens, List.append_assoc, List.cons_append, List.nil_append]
    have body := parses_flows bound x bound ofFlows (by omega) (by omega)
    refine (refuses_declared (List.all_eq_true.mp (by decide)) (by decide) (by omega) _).orElse ?_
    refine (refuses_declared (List.all_eq_true.mp (by decide)) (by decide) (by omega) _).orElse ?_
    exact (Parses.docs (.doc_name "protocol" _) docs (by omega)).bind
      ((Parses.keyword "protocol" _).bind ((Parses.ident name _).bind ((Parses.mark "\x7b" _).bind
        (body.bind ((Parses.mark "\x7d" x).bind (.pure _ _))))))

theorem item_nonempty {d : Item} {ts : List Token} (writes : d.Writes ts) : 0 < ts.length := by
  cases d with
  | type d =>
    obtain ⟨docs, inner, _, rfl⟩ := writes
    simp only [List.length_append, List.length_cons]
    omega
  | protocol d =>
    obtain ⟨docs, inner, _, rfl⟩ := writes
    simp only [List.length_append, List.length_cons]
    omega

theorem parses_itemList (bound : Nat) : ∀ {ds : List Item} {ts : List Token} (most : Nat),
    WritesItems ds ts → ts.length ≤ bound → ts.length ≤ most →
      Parses (many (item bound) most) ts ds []
  | [], _, most, writes, _, _ => by
    cases writes
    have stop : Refuses (item bound) [] := (refuses_end (by decide) bound).both
      ((refuses_end (by decide) bound).both (refuses_end (by decide) bound))
    exact .many_nil stop most
  | d :: ds, _, most, writes, small, few => by
    obtain ⟨first, others, ofFirst, ofRest, rfl⟩ := writes
    have some_ := item_nonempty ofFirst
    rw [List.length_append] at small few
    cases most with
    | zero => omega
    | succ most =>
      have later := parses_itemList bound most ofRest (by omega) (by omega)
      exact (parses_item ofFirst (by omega) others).many_cons later

theorem Spelled.length_le {ts : List Token} {text : List Char} (spelled : Spelled ts text) :
    ts.length ≤ text.length := by
  induction spelled with
  | done => exact Nat.zero_le _
  | token before spells parts after ih =>
    obtain ⟨c, rest, rfl⟩ := spells.nonempty
    simp only [List.length_cons, List.length_append]
    omega

theorem parseAll_spelling {ds : List Item} {text : String} (spells : Spells ds text) :
    Item.parseAll? text = some ds := by
  obtain ⟨ts, writes, spelled⟩ := spells
  have few := spelled.length_le
  have last : Parses endOfText [] () [] := by
    intro text spelled
    refine ⟨[], ?_, .done (.closed .none)⟩
    rw [endOfText, spelled.token_end]
    rfl
  have all : Parses (items text.toList.length) ts ds [] :=
    (parses_itemList _ _ writes few few).bind (last.bind (.pure _ _))
  obtain ⟨rest, run, _⟩ := all text.toList spelled
  simp only [Item.parseAll?, StateT.run, run]
  rfl

end WireSchema.Source
