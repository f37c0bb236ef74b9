import WireSchema.Proofs.Source.Lexing

/-!
# Parsers on tokens

What a parser does on a text depends on the tokens that the text spells and not on what stands
between them. This is a small logic for parsers: what each combinator takes off a list of tokens,
given what its parts take off or refuse.
-/

namespace WireSchema.Source

open WireSchema.Source.Parser

/-! ### Parsers on tokens -/

/-- On every text that spells the tokens `before`, the parser gives `a` and leaves a text that spells
the tokens `after`. -/
def Parses {α : Type} (p : Parser α) (before : List Token) (a : α) (after : List Token) : Prop :=
  ∀ text, Spelled before text → ∃ rest, p text = some (a, rest) ∧ Spelled after rest

/-- The parser refuses every text that spells the tokens. -/
def Refuses {α : Type} (p : Parser α) (ts : List Token) : Prop :=
  ∀ text, Spelled ts text → p text = none

section Combinators

variable {α β : Type} {p q : Parser α} {f : α → Parser β} {x y z : List Token} {a : α} {b : β}

theorem bind_some {text rest : List Char} (run : p text = some (a, rest)) :
    (p >>= f) text = f a rest := by
  change (p text >>= fun r => f r.1 r.2) = _
  rw [run]
  rfl

theorem bind_none {text : List Char} (run : p text = none) : (p >>= f) text = none := by
  change (p text >>= fun r => f r.1 r.2) = _
  rw [run]
  rfl

theorem orElse_run (text : List Char) : (p <|> q) text = (p text <|> q text) := rfl

theorem Parses.pure (a : α) (x : List Token) : Parses (pure a) x a x :=
  fun text spelled => ⟨text, rfl, spelled⟩

theorem Parses.bind (first : Parses p x a y) (second : Parses (f a) y b z) :
    Parses (p >>= f) x b z := by
  intro text spelled
  obtain ⟨middle, run, left⟩ := first text spelled
  obtain ⟨rest, run', left'⟩ := second middle left
  exact ⟨rest, (bind_some run).trans run', left'⟩

theorem Refuses.bind (first : Refuses p x) : Refuses (p >>= f) x :=
  fun text spelled => bind_none (first text spelled)

theorem Parses.refuses (first : Parses p x a y) (second : Refuses (f a) y) :
    Refuses (p >>= f) x := by
  intro text spelled
  obtain ⟨middle, run, left⟩ := first text spelled
  exact (bind_some run).trans (second middle left)

theorem Parses.left (first : Parses p x a y) : Parses (p <|> q) x a y := by
  intro text spelled
  obtain ⟨rest, run, left⟩ := first text spelled
  exact ⟨rest, by rw [orElse_run, run]; rfl, left⟩

theorem Refuses.orElse (first : Refuses p x) (second : Parses q x a y) :
    Parses (p <|> q) x a y := by
  intro text spelled
  obtain ⟨rest, run, left⟩ := second text spelled
  exact ⟨rest, by rw [orElse_run, first text spelled, run]; rfl, left⟩

theorem Refuses.both (first : Refuses p x) (second : Refuses q x) : Refuses (p <|> q) x := by
  intro text spelled
  rw [orElse_run, first text spelled, second text spelled]
  rfl

theorem Parses.many_nil (stop : Refuses p x) (bound : Nat) : Parses (many p bound) x [] x := by
  intro text spelled
  refine ⟨text, ?_, spelled⟩
  cases bound with
  | zero => rfl
  | succ bound => simp only [many, stop text spelled]

theorem Parses.many_cons {bound : Nat} {as : List α} (first : Parses p x a y)
    (others : Parses (many p bound) y as z) : Parses (many p (bound + 1)) x (a :: as) z := by
  intro text spelled
  obtain ⟨middle, run, left⟩ := first text spelled
  obtain ⟨rest, run', left'⟩ := others middle left
  refine ⟨rest, ?_, left'⟩
  simp only [many, run, run']
  rfl

theorem Parses.opt_none (stop : Refuses p x) : Parses (opt p) x none x :=
  fun text spelled => ⟨text, by rw [opt, stop text spelled], spelled⟩

theorem Parses.opt_some (item : Parses p x a y) : Parses (opt p) x (some a) y := by
  intro text spelled
  obtain ⟨rest, run, left⟩ := item text spelled
  exact ⟨rest, by rw [opt, run], left⟩

end Combinators

/-! ### Tokens -/

theorem Parses.mark (s : String) (x : List Token) : Parses (word s) (.mark s :: x) () x :=
  fun _ spelled => word_mark spelled

theorem Parses.keyword (s : String) (x : List Token) : Parses (word s) (.name s :: x) () x :=
  fun _ spelled => word_name spelled

theorem Parses.ident (s : String) (x : List Token) : Parses ident (.name s :: x) s x :=
  fun _ spelled => ident_take spelled

theorem Parses.numeral (n : Numeral) (x : List Token) : Parses numeral (.number n :: x) n x :=
  fun _ spelled => numeral_take spelled

theorem Parses.literal (l : LiteralSpec) (x : List Token) :
    Parses literal (literalToken l :: x) l x :=
  fun _ spelled => literal_take spelled

/-- The next token is one of the marks. -/
def NextMark (ms : List String) (ts : List Token) : Prop := ∃ m ∈ ms, ∃ rest, ts = .mark m :: rest

theorem NextMark.head {m : String} {ms : List String} (member : m ∈ ms) (rest : List Token) :
    NextMark ms (.mark m :: rest) :=
  ⟨m, member, rest, rfl⟩

theorem Refuses.ident {ms : List String} {ts : List Token} (next : NextMark ms ts) :
    Refuses ident ts := by
  obtain ⟨m, _, rest, rfl⟩ := next
  exact fun _ spelled => ident_refuses_mark spelled

/-- A mark refuses marks that start otherwise. -/
theorem Refuses.mark {w : String} {ms : List String} {ts : List Token} (next : NextMark ms ts)
    (some_ : w.toList ≠ []) (other : ∀ m ∈ ms, m.toList.head? ≠ w.toList.head?) :
    Refuses (word w) ts := by
  obtain ⟨m, member, rest, rfl⟩ := next
  intro text spelled
  cases form : w.toList with
  | nil => exact absurd form some_
  | cons c more =>
    refine word_refuses spelled form fun cs spells => ?_
    have different := other m member
    rw [form] at different
    rw [spells.1]
    exact different

/-- A keyword refuses other names that do not begin with it. -/
theorem Refuses.keyword {w s : String} (letters : ∀ c ∈ w.toList, isIdentRest c = true)
    (other : ¬w.toList <+: s.toList) (ts : List Token) : Refuses (word w) (.name s :: ts) :=
  fun _ spelled => keyword_refuses letters spelled other

theorem Refuses.doc_name (s : String) (ts : List Token) : Refuses doc (.name s :: ts) :=
  fun _ spelled => doc_refuses spelled fun _ same => by cases same

theorem Refuses.doc_mark {ms : List String} {ts : List Token} (next : NextMark ms ts) :
    Refuses doc ts := by
  obtain ⟨m, _, rest, rfl⟩ := next
  exact fun _ spelled => doc_refuses spelled fun _ same => by cases same

/-- Lines of documentation are read up to the first token that is none. -/
theorem Parses.docs {x : List Token} (stop : Refuses doc x) (docs : List String) :
    ∀ {bound : Nat}, docs.length ≤ bound →
      Parses (many doc bound) (docs.map .doc ++ x) docs x := by
  induction docs with
  | nil => exact fun {bound} _ => .many_nil stop bound
  | cons line docs ih =>
    intro bound small
    cases bound with
    | zero => cases small
    | succ bound =>
      have first : Parses doc (.doc line :: (docs.map .doc ++ x)) line (docs.map .doc ++ x) :=
        fun _ spelled => doc_take spelled
      exact first.many_cons (ih (Nat.le_of_succ_le_succ small))

/-! ### Lists with commas -/

/-- Each entry of a list reads its tokens, whatever mark of `ms` comes next. -/
def EachParses {α : Type} (p : Parser α) (ms : List String) : List α → List (List Token) → Prop
  | [], items => items = []
  | a :: as, items => ∃ ts others, items = ts :: others ∧
    (∀ x, NextMark ms x → Parses p (ts ++ x) a x) ∧ EachParses p ms as others

theorem eachParses_map {α : Type} {p : Parser α} {ms : List String} {tokens : α → List Token}
    (one : ∀ a x, NextMark ms x → Parses p (tokens a ++ x) a x) (as : List α) :
    EachParses p ms as (as.map tokens) := by
  induction as with
  | nil => rfl
  | cons a as ih => exact ⟨_, _, rfl, one a, ih⟩

theorem separated_length (items : List (List Token)) :
    items.length ≤ (separated items).length + 1 := by
  have others : ∀ items : List (List Token),
      items.length ≤ (items.flatMap (.mark "," :: ·)).length := by
    intro items
    induction items with
    | nil => exact Nat.le_refl 0
    | cons ts items ih =>
      simp only [List.flatMap_cons, List.length_append, List.length_cons]
      omega
  cases items with
  | nil => exact Nat.zero_le _
  | cons ts items =>
    have := others items
    simp only [separated, List.length_append, List.length_cons]
    omega

section Lists

variable {α : Type} {p : Parser α} {ms : List String}

theorem EachParses.length {as : List α} {items : List (List Token)}
    (each : EachParses p ms as items) : items.length = as.length := by
  induction as generalizing items with
  | nil =>
    cases each
    rfl
  | cons a as ih =>
    obtain ⟨ts, others, rfl, _, rest⟩ := each
    rw [List.length_cons, List.length_cons, ih rest]

theorem parses_others (comma : "," ∈ ms) {x : List Token} (next : NextMark ms x)
    (stop : Refuses (do word ","; p) x) :
    ∀ {as : List α} {items : List (List Token)} {bound : Nat}, EachParses p ms as items →
      as.length ≤ bound →
      Parses (many (do word ","; p) bound) (items.flatMap (.mark "," :: ·) ++ x) as x
  | [], items, bound, each, _ => by
    cases each
    exact .many_nil stop bound
  | a :: as, items, bound, each, small => by
    obtain ⟨ts, others, rfl, first, rest⟩ := each
    cases bound with
    | zero => cases small
    | succ bound =>
      have later := parses_others comma next stop rest (Nat.le_of_succ_le_succ small)
      -- What comes after an entry is the comma of the next one, or what comes after the list.
      have follows : NextMark ms (others.flatMap (.mark "," :: ·) ++ x) := by
        cases others with
        | nil => exact next
        | cons => exact .head comma _
      have entry : Parses (do word ","; p) (.mark "," :: (ts ++ _)) a _ :=
        (Parses.mark "," _).bind (first _ follows)
      simp only [List.flatMap_cons, List.cons_append, List.append_assoc]
      exact entry.many_cons later

theorem parses_separated (comma : "," ∈ ms) {x : List Token} (next : NextMark ms x)
    (stop : Refuses (do word ","; p) x) {as : List α} {items : List (List Token)} {bound : Nat}
    (each : EachParses p ms as items) (some_ : as ≠ [])
    (small : (separated items).length ≤ bound) :
    Parses (commaSeparated bound p) (separated items ++ x) as x := by
  have few : as.length ≤ bound + 1 := by
    have := separated_length items
    rw [each.length] at this
    omega
  cases as with
  | nil => exact absurd rfl some_
  | cons a as =>
    obtain ⟨ts, others, rfl, first, rest⟩ := each
    have follows : NextMark ms (others.flatMap (.mark "," :: ·) ++ x) := by
      cases others with
      | nil => exact next
      | cons => exact .head comma _
    have later := parses_others comma next stop rest (Nat.le_of_succ_le_succ few)
    rw [separated, List.append_assoc]
    exact (first _ follows).bind (later.bind (.pure _ _))

/-- A closing mark stops a list, with a comma in front of it or without. -/
theorem parses_ended (comma : "," ∈ ms) {close : String} (closes : close ∈ ms)
    (plain : close.toList.head? ≠ some ',') {x : List Token} (stop : Refuses p (.mark close :: x))
    {as : List α} {items : List (List Token)} {bound : Nat} {ts : List Token}
    (each : EachParses p ms as items) (some_ : as ≠ []) (listed : Listed items ts)
    (small : ts.length ≤ bound) :
    Parses (commaEnded bound p) (ts ++ .mark close :: x) as (.mark close :: x) := by
  have noComma : Refuses (word ",") (.mark close :: x) := by
    have next : NextMark [close] (.mark close :: x) := .head (List.mem_singleton.mpr rfl) x
    refine .mark next (by decide) fun m member => ?_
    rw [List.mem_singleton.mp member]
    exact plain
  rcases listed with rfl | ⟨_, rfl⟩
  · have list := parses_separated comma (.head closes x) noComma.bind each some_ small
    exact list.bind ((Parses.opt_none noComma).bind (.pure _ _))
  · rw [List.length_append] at small
    rw [List.append_assoc]
    have list := parses_separated comma (.head comma (.mark close :: x))
      ((Parses.mark "," _).refuses stop) each some_ (Nat.le_of_add_right_le small)
    exact list.bind ((Parses.opt_some (.mark "," _)).bind (.pure _ _))

/-- What stands between braces. -/
theorem parses_entries (comma : "," ∈ ms) (closes : "\x7d" ∈ ms) {x : List Token}
    (stop : ∀ y, Refuses p (.mark "\x7d" :: y)) {as : List α} {items : List (List Token)}
    {bound : Nat} {ts : List Token} (each : EachParses p ms as items)
    (listed : Listed items ts) (small : ts.length ≤ bound) :
    Parses (entries (commaEnded bound p)) (bracedTokens ts ++ x) as x := by
  have opening := Parses.mark "\x7b" (ts ++ .mark "\x7d" :: x)
  have closing := Parses.mark "\x7d" x
  rw [bracedTokens, List.cons_append, List.append_assoc, List.cons_append, List.nil_append]
  cases as with
  | nil =>
    cases each
    have empty : ts = [] := by
      rcases listed with rfl | ⟨some_, _⟩
      · rfl
      · exact absurd rfl some_
    subst empty
    have none_ : Refuses (commaEnded bound p) (.mark "\x7d" :: x) := (stop x).bind.bind
    exact opening.bind ((Parses.opt_none none_).bind (closing.bind (.pure _ _)))
  | cons a as =>
    have list := parses_ended comma closes (by decide) (stop x) each (by simp) listed small
    exact opening.bind (list.opt_some.bind (closing.bind (.pure _ _)))

end Lists

end WireSchema.Source
