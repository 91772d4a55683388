import Mathlib.Data.List.Nodup
import Mathlib.Data.List.TakeWhile
import RandomDelay.CommandLine.Command
import RandomDelay.Proofs.Text.Integer

/-!
# Spellings of options

An option with a value may be spelled by its long name, by a beginning of it that no other option
shares, or by its letter, and the value may follow as an argument of its own, after an equals sign,
or directly after the letter (`Spelled`). Where no two options share a name or a letter, and no name
or letter looks like something else (`Orderly`), every spelling is read as the same event, whatever
arguments follow it (`readAs_of_spelled`). The options of both tools are such (`orderly_switches`).
-/

set_option autoImplicit false

namespace RandomDelay.CommandLine

/-- Texts that name an option: its long name, and the beginnings of that name that no other option
has. -/
def Switch.NamedBy (switches : List Switch) (s : Switch) (name : List Char) : Prop :=
  name ≠ [] ∧ (name = s.long ∨ name <+: s.long ∧ ∀ t ∈ switches, name <+: t.long → t = s)

instance (switches : List Switch) (s : Switch) (name : List Char) :
    Decidable (s.NamedBy switches name) := inferInstanceAs (Decidable (_ ∧ _))

/-- Arguments that spell an option with its value. -/
inductive Spelled (switches : List Switch) (s : Switch) (value : List Char) :
    List (List Char) → Prop where
  | named {name : List Char} : s.NamedBy switches name →
      Spelled switches s value ['-' :: '-' :: name, value]
  | namedEquals {name : List Char} : s.NamedBy switches name →
      Spelled switches s value ['-' :: '-' :: (name ++ '=' :: value)]
  | lettered {c : Char} : s.letter = some c → Spelled switches s value [['-', c], value]
  | letteredEquals {c : Char} :
      s.letter = some c → Spelled switches s value ['-' :: c :: '=' :: value]
  | letteredDirectly {c : Char} : s.letter = some c → Spelled switches s value ['-' :: c :: value]

/-- Options that cannot be taken for each other, for values or for assignments. -/
structure Orderly (switches : List Switch) : Prop where
  nodup : switches.Nodup
  long_injective : ∀ s ∈ switches, ∀ t ∈ switches, s.long = t.long → s = t
  letter_injective : ∀ s ∈ switches, ∀ t ∈ switches, s.letter.isSome → s.letter = t.letter → s = t
  long_plain : ∀ s ∈ switches, '=' ∉ s.long
  letter_plain : ∀ s ∈ switches, ∀ c ∈ s.letter, c ≠ '-' ∧ c ≠ '=' ∧ c.isDigit = false

theorem orderly_switches (tool : Tool) : Orderly tool.switches := by
  have hletters : ∀ s ∈ tool.switches,
      s.letter.all fun c => c ≠ '-' ∧ c ≠ '=' ∧ c.isDigit = false := by
    cases tool <;> decide +kernel
  constructor
  case letter_plain =>
    intro s hs c hc
    exact of_decide_eq_true ((Option.all_eq_true _ _).1 (hletters s hs) c hc)
  all_goals cases tool <;> decide +kernel

/-! ## Options found by name and letter -/

theorem find?_eq_some_of_unique {α : Type} {p : α → Bool} {l : List α} {a : α} (ha : a ∈ l)
    (hp : p a = true) (hunique : ∀ b ∈ l, p b = true → b = a) : l.find? p = some a := by
  cases hfind : l.find? p with
  | none => exact absurd hp (List.find?_eq_none.1 hfind a ha)
  | some b => rw [hunique b (List.mem_of_find?_eq_some hfind) (List.find?_some hfind)]

theorem filter_eq_singleton_of_unique {p : Switch → Bool} {l : List Switch} {a : Switch}
    (hnodup : l.Nodup) (ha : a ∈ l) (hp : p a = true) (hunique : ∀ b ∈ l, p b = true → b = a) :
    l.filter p = [a] := by
  have hsame : l.filter p = l.filter (· == a) := by
    apply List.filter_congr
    intro b hb
    rw [Bool.eq_iff_iff, beq_iff_eq]
    constructor
    · exact hunique b hb
    · rintro rfl
      exact hp
  rw [hsame, List.filter_beq, List.count_eq_one_of_mem hnodup ha]
  rfl

section

variable {switches : List Switch} {s : Switch} {name value : List Char} {c : Char}

theorem Switch.NamedBy.isPrefix (h : s.NamedBy switches name) : name <+: s.long := by
  rcases h.2 with rfl | ⟨hbegin, -⟩
  · exact List.prefix_refl _
  · exact hbegin

theorem Switch.NamedBy.plain (ho : Orderly switches) (hs : s ∈ switches)
    (h : s.NamedBy switches name) : '=' ∉ name := fun hmem =>
  ho.long_plain s hs (h.isPrefix.subset hmem)

/-- A name is the long name of its option, or of none. -/
theorem find?_long_of_namedBy (ho : Orderly switches) (hs : s ∈ switches)
    (h : s.NamedBy switches name) :
    switches.find? (·.long = name) = some s ∨
      switches.find? (·.long = name) = none ∧
        switches.filter (name.isPrefixOf ·.long) = [s] := by
  rcases h.2 with rfl | ⟨hbegin, hunique⟩
  · -- the whole name counts even where other names go on from it
    left
    refine find?_eq_some_of_unique hs (decide_eq_true rfl) ?_
    intro t ht hlong
    exact ho.long_injective t ht s hs (of_decide_eq_true hlong)
  · cases hfind : switches.find? (·.long = name) with
    | none =>
      right
      refine ⟨rfl,
        filter_eq_singleton_of_unique ho.nodup hs (List.isPrefixOf_iff_prefix.2 hbegin) ?_⟩
      intro t ht hbegins
      exact hunique t ht (List.isPrefixOf_iff_prefix.1 hbegins)
    | some t =>
      left
      have hfound := List.find?_some hfind
      have hlong : t.long = name := of_decide_eq_true hfound
      rw [hunique t (List.mem_of_find?_eq_some hfind) (hlong ▸ List.prefix_refl _)]

theorem withLetter?_of_letter (ho : Orderly switches) (hs : s ∈ switches) (h : s.letter = some c) :
    withLetter? switches c = some s := by
  refine find?_eq_some_of_unique hs (decide_eq_true h) ?_
  intro t ht hletter
  have hsame : s.letter = t.letter := h.trans (of_decide_eq_true hletter).symm
  exact (ho.letter_injective s hs t ht (by rw [h]; rfl) hsame).symm

theorem filter_letter_of_letter (ho : Orderly switches) (hs : s ∈ switches)
    (h : s.letter = some c) : switches.filter (·.letter = some c) = [s] := by
  refine filter_eq_singleton_of_unique ho.nodup hs (decide_eq_true h) ?_
  intro t ht hletter
  have hsame : s.letter = t.letter := h.trans (of_decide_eq_true hletter).symm
  exact (ho.letter_injective s hs t ht (by rw [h]; rfl) hsame).symm

/-! ## Words -/

namespace Word

theorem splitValue_of_not_mem {text : List Char} (h : '=' ∉ text) :
    splitValue text = (text, none) := by
  have hdrop : text.dropWhile (· != '=') = [] := by
    rw [List.dropWhile_eq_nil_iff]
    intro c hc
    exact bne_iff_ne.2 fun heq => h (heq ▸ hc)
  rw [splitValue, hdrop]

theorem splitValue_append {text : List Char} (h : '=' ∉ text) (value : List Char) :
    splitValue (text ++ '=' :: value) = (text, some value) := by
  have hall : ∀ c ∈ text, (c != '=') = true := fun c hc => bne_iff_ne.2 fun heq => h (heq ▸ hc)
  rw [splitValue, List.dropWhile_append_of_pos hall, List.takeWhile_append_of_pos hall]
  simp

theorem candidates_of_splitValue {text : List Char} {attached : Option (List Char)}
    (h : splitValue text = (name, attached)) :
    candidates switches ('-' :: '-' :: text) =
      (switches.filter (name.isPrefixOf ·.long)).map fun s => .option s false attached := by
  rw [candidates, h]

/-- An argument with a dash that is written out is that option. -/
theorem ofText?_of_spelled {text : List Char} {word : Word} (hne : text ≠ [])
    (h : (spelled? switches none ('-' :: text)).or (assigned? switches ('-' :: text)) = some word) :
    ofText? switches ('-' :: text) = some word := by
  rw [ofText?, if_neg (by simp [hne]), h]

/-- One that is not is the only option that it may be meant for. -/
theorem ofText?_of_candidate {text : List Char} {word : Word} (hne : text ≠ [])
    (hnone : (spelled? switches none ('-' :: text)).or (assigned? switches ('-' :: text)) = none)
    (h : candidates switches ('-' :: text) = [word]) :
    ofText? switches ('-' :: text) = some word := by
  rw [ofText?, if_neg (by simp [hne]), hnone, h]

/-- A long name, whole or cut short, is read as its option. -/
theorem ofText?_named (ho : Orderly switches) (hs : s ∈ switches) (h : s.NamedBy switches name) :
    ofText? switches ('-' :: '-' :: name) = some (.option s false none) := by
  have hplain : '=' ∉ '-' :: '-' :: name := by simp [h.plain ho hs]
  have hassigned : assigned? switches ('-' :: '-' :: name) = none := by
    rw [assigned?, splitValue_of_not_mem hplain]
  rcases find?_long_of_namedBy ho hs h with hfind | ⟨hfind, hfilter⟩
  · apply ofText?_of_spelled (List.cons_ne_nil _ _)
    rw [spelled?, hfind]
    rfl
  · apply ofText?_of_candidate (List.cons_ne_nil _ _)
    · rw [spelled?, hfind, hassigned]
      rfl
    · rw [candidates_of_splitValue (splitValue_of_not_mem (h.plain ho hs)), hfilter]
      rfl

/-- What follows an equals sign after a name is the value of its option. -/
theorem ofText?_namedEquals (ho : Orderly switches) (hs : s ∈ switches)
    (h : s.NamedBy switches name) (value : List Char) :
    ofText? switches ('-' :: '-' :: (name ++ '=' :: value)) =
      some (.option s false (some value)) := by
  have hplain : '=' ∉ '-' :: '-' :: name := by simp [h.plain ho hs]
  -- no long name has the equals sign in it
  have hwhole : spelled? switches none ('-' :: '-' :: (name ++ '=' :: value)) = none := by
    rw [spelled?, Option.map_eq_none_iff, List.find?_eq_none]
    intro t ht hlong
    apply ho.long_plain t ht
    rw [of_decide_eq_true hlong]
    simp
  have hsplit : splitValue ('-' :: '-' :: (name ++ '=' :: value)) =
      ('-' :: '-' :: name, some value) := splitValue_append hplain value
  rcases find?_long_of_namedBy ho hs h with hfind | ⟨hfind, hfilter⟩
  · apply ofText?_of_spelled (List.cons_ne_nil _ _)
    rw [hwhole, assigned?, hsplit]
    show (none : Option Word).or (spelled? switches (some value) ('-' :: '-' :: name)) = _
    rw [spelled?, hfind]
    rfl
  · apply ofText?_of_candidate (List.cons_ne_nil _ _)
    · rw [hwhole, assigned?, hsplit]
      show (none : Option Word).or (spelled? switches (some value) ('-' :: '-' :: name)) = _
      rw [spelled?, hfind]
      rfl
    · rw [candidates_of_splitValue (splitValue_append (h.plain ho hs) value), hfilter]
      rfl

theorem spelled?_letter (hdash : c ≠ '-') (attached : Option (List Char)) :
    spelled? switches attached ['-', c] =
      (withLetter? switches c).map fun s => .option s true attached := by
  rw [spelled?]
  exact hdash

/-- A letter with more after it is not written out. -/
theorem spelled?_letter_cons (hdash : c ≠ '-') {rest : List Char} (hne : rest ≠ [])
    (attached : Option (List Char)) : spelled? switches attached ('-' :: c :: rest) = none := by
  rw [spelled?]
  · intro long heq
    exact hdash (List.cons.inj (List.cons.inj heq).2).1
  · intro d heq
    exact hne (List.cons.inj (List.cons.inj heq).2).2

theorem candidates_letter (hdash : c ≠ '-') (tail : List Char) :
    candidates switches ('-' :: c :: tail) =
      (switches.filter (·.letter = some c)).map fun s => .option s true (some tail) := by
  rw [candidates]
  exact hdash

/-- A letter with nothing after it is read as its option. -/
theorem ofText?_lettered (ho : Orderly switches) (hs : s ∈ switches) (h : s.letter = some c) :
    ofText? switches ['-', c] = some (.option s true none) := by
  obtain ⟨hdash, -, -⟩ := ho.letter_plain s hs c h
  apply ofText?_of_spelled (List.cons_ne_nil _ _)
  rw [spelled?_letter hdash, withLetter?_of_letter ho hs h]
  rfl

/-- What follows an equals sign after a letter is the value of its option. -/
theorem ofText?_letteredEquals (ho : Orderly switches) (hs : s ∈ switches) (h : s.letter = some c)
    (value : List Char) :
    ofText? switches ('-' :: c :: '=' :: value) = some (.option s true (some value)) := by
  obtain ⟨hdash, hequals, -⟩ := ho.letter_plain s hs c h
  have hplain : '=' ∉ ['-', c] := by simp [Ne.symm hequals]
  have hsplit : splitValue ('-' :: c :: '=' :: value) = (['-', c], some value) :=
    splitValue_append hplain value
  apply ofText?_of_spelled (List.cons_ne_nil _ _)
  rw [spelled?_letter_cons hdash (List.cons_ne_nil _ _), assigned?, hsplit]
  show (none : Option Word).or (spelled? switches (some value) ['-', c]) = _
  rw [spelled?_letter hdash, withLetter?_of_letter ho hs h]
  rfl

/-- What follows directly after a letter is the value of its option. -/
theorem ofText?_letteredDirectly (ho : Orderly switches) (hs : s ∈ switches) (h : s.letter = some c)
    (hne : value ≠ []) (hvalue : '=' ∉ value) :
    ofText? switches ('-' :: c :: value) = some (.option s true (some value)) := by
  obtain ⟨hdash, hequals, -⟩ := ho.letter_plain s hs c h
  have hplain : '=' ∉ '-' :: c :: value := by simp [Ne.symm hequals, hvalue]
  apply ofText?_of_candidate (List.cons_ne_nil _ _)
  · rw [spelled?_letter_cons hdash hne, assigned?, splitValue_of_not_mem hplain]
    rfl
  · rw [candidates_letter hdash, filter_letter_of_letter ho hs h]
    rfl

/-- An argument that begins with a digit is plain. -/
theorem ofText?_of_isDigit {rest : List Char} (h : c.isDigit = true) :
    ofText? switches (c :: rest) = some (.plain (c :: rest)) := by
  have hdash : c ≠ '-' := by
    rintro rfl
    cases h
  rw [ofText?, if_pos (by simp [hdash])]

theorem isNegativeNumber_of_digits {digits : List Char} (hne : digits ≠ [])
    (h : ∀ d ∈ digits, d.isDigit = true) : isNegativeNumber ('-' :: digits) = true := by
  have hlast : ('-' :: digits).getLast? ≠ some '\n' := by
    rw [List.getLast?_cons_of_ne_nil hne]
    intro hbreak
    cases h _ (List.mem_of_getLast? hbreak)
  have hdrop : digits.dropWhile Text.isDecimalDigit = [] :=
    List.dropWhile_eq_nil_iff.2 fun d hd => Text.isDecimalDigit_of_isDigit (h d hd)
  have hdigits : (!digits.isEmpty) = true := by simp [hne]
  rw [isNegativeNumber, if_neg hlast]
  simp only [hdrop]
  exact hdigits

/-- A negative number is plain, for no letter is a digit. -/
theorem ofText?_negative (ho : Orderly switches) {digits : List Char} (hne : digits ≠ [])
    (h : ∀ d ∈ digits, d.isDigit = true) :
    ofText? switches ('-' :: digits) = some (.plain ('-' :: digits)) := by
  obtain ⟨d, rest, rfl⟩ := List.exists_cons_of_ne_nil hne
  have hd : d.isDigit = true := h d List.mem_cons_self
  have hdash : d ≠ '-' := by
    rintro rfl
    cases hd
  have hletter : ∀ t ∈ switches, ¬ t.letter = some d := by
    intro t ht hletter
    obtain ⟨-, -, hdigit⟩ := ho.letter_plain t ht d hletter
    rw [hdigit] at hd
    cases hd
  have hwhole : spelled? switches none ('-' :: d :: rest) = none := by
    by_cases hrest : rest = []
    · have hnone : withLetter? switches d = none :=
        List.find?_eq_none.2 fun t ht => by simp [hletter t ht]
      rw [hrest, spelled?_letter hdash, hnone]
      rfl
    · exact spelled?_letter_cons hdash hrest none
  have hplain : '=' ∉ '-' :: d :: rest := by
    intro hmem
    cases hmem with
    | tail _ hmem => cases h '=' hmem
  have hcandidates : candidates switches ('-' :: d :: rest) = [] := by
    have hnone : switches.filter (·.letter = some d) = [] :=
      List.filter_eq_nil_iff.2 fun t ht => by simp [hletter t ht]
    rw [candidates_letter hdash, hnone]
    rfl
  have hassigned : assigned? switches ('-' :: d :: rest) = none := by
    rw [assigned?, splitValue_of_not_mem hplain]
  rw [ofText?, if_neg (by simp), hwhole, hassigned, hcandidates, isNegativeNumber_of_digits hne h]
  rfl

end Word

/-! ## Events -/

/-- Texts that are read as values: plain words other than the divider, without an equals sign. -/
structure IsValue (switches : List Switch) (text : List Char) : Prop where
  plain : Word.ofText? switches text = some (.plain text)
  ne_divider : text ≠ dividerText
  ne_nil : text ≠ []
  no_equals : '=' ∉ text

/-- Arguments that come down to one event, whatever arguments follow. -/
def ReadAs (switches : List Switch) (arguments : List (List Char)) (event : Event) : Prop :=
  ∃ words : List Word,
    (∀ rest restWords, Word.ofTexts? switches rest = some restWords →
      Word.ofTexts? switches (arguments ++ rest) = some (words ++ restWords)) ∧
    ∀ restWords, Event.ofWords switches (words ++ restWords) =
      event :: Event.ofWords switches restWords

theorem Word.ofTexts?_cons {text : List Char} {word : Word} (hdivider : text ≠ dividerText)
    (hword : ofText? switches text = some word) {rest : List (List Char)} {restWords : List Word}
    (hrest : ofTexts? switches rest = some restWords) :
    ofTexts? switches (text :: rest) = some (word :: restWords) := by
  rw [ofTexts?, if_neg hdivider, hword, hrest]
  rfl

/-- An option that has its value attached. -/
theorem readAs_attached {text : List Char} {byLetter : Bool} (hdivider : text ≠ dividerText)
    (hword : Word.ofText? switches text = some (.option s byLetter (some value)))
    (htakes : s.takesValue = true) : ReadAs switches [text] (.value s.key value) := by
  refine ⟨[.option s byLetter (some value)], ?_, ?_⟩
  · intro rest restWords hrest
    exact Word.ofTexts?_cons hdivider hword hrest
  · intro restWords
    have hopened : Event.opened? switches s byLetter (some value) =
        some ([.value s.key value], none) := if_pos htakes
    rw [List.singleton_append, Event.ofWords, hopened]
    rfl

/-- An option that takes the next argument as its value. -/
theorem readAs_apart {text : List Char} {byLetter : Bool} (hdivider : text ≠ dividerText)
    (hword : Word.ofText? switches text = some (.option s byLetter none))
    (htakes : s.takesValue = true) (hvalue : IsValue switches value) :
    ReadAs switches [text, value] (.value s.key value) := by
  refine ⟨[.option s byLetter none, .plain value], ?_, ?_⟩
  · intro rest restWords hrest
    exact Word.ofTexts?_cons hdivider hword
      (Word.ofTexts?_cons hvalue.ne_divider hvalue.plain hrest)
  · intro restWords
    have hopened : Event.opened? switches s byLetter none = some ([], some s) :=
      congrArg some (if_pos htakes)
    rw [List.cons_append, List.singleton_append, Event.ofWords, hopened]
    rfl

/-- A flag. -/
theorem readAs_flag {text : List Char} {byLetter : Bool} (hdivider : text ≠ dividerText)
    (hword : Word.ofText? switches text = some (.option s byLetter none))
    (htakes : s.takesValue = false) : ReadAs switches [text] (.flag s.key) := by
  refine ⟨[.option s byLetter none], ?_, ?_⟩
  · intro rest restWords hrest
    exact Word.ofTexts?_cons hdivider hword hrest
  · intro restWords
    have hopened : Event.opened? switches s byLetter none = some ([.flag s.key], none) :=
      congrArg some (if_neg (ne_true_of_eq_false htakes))
    rw [List.singleton_append, Event.ofWords, hopened]
    rfl

theorem name_ne_divider {text : List Char} (hne : text ≠ []) : '-' :: '-' :: text ≠ dividerText :=
  fun heq => hne (List.cons.inj (List.cons.inj heq).2).2

theorem letter_ne_divider (hdash : c ≠ '-') (rest : List Char) : '-' :: c :: rest ≠ dividerText :=
  fun heq => hdash (List.cons.inj (List.cons.inj heq).2).1

/-- Every spelling of an option with a value comes down to the value. -/
theorem readAs_of_spelled (ho : Orderly switches) (hs : s ∈ switches) (htakes : s.takesValue = true)
    (hvalue : IsValue switches value) {arguments : List (List Char)}
    (h : Spelled switches s value arguments) : ReadAs switches arguments (.value s.key value) := by
  cases h with
  | named hname =>
    exact readAs_apart (name_ne_divider hname.1) (Word.ofText?_named ho hs hname) htakes hvalue
  | namedEquals hname =>
    have hne := List.append_ne_nil_of_left_ne_nil hname.1 ('=' :: value)
    exact readAs_attached (name_ne_divider hne) (Word.ofText?_namedEquals ho hs hname value) htakes
  | lettered hletter =>
    obtain ⟨hdash, -, -⟩ := ho.letter_plain s hs _ hletter
    exact readAs_apart (letter_ne_divider hdash [])
      (Word.ofText?_lettered ho hs hletter) htakes hvalue
  | letteredEquals hletter =>
    obtain ⟨hdash, -, -⟩ := ho.letter_plain s hs _ hletter
    exact readAs_attached (letter_ne_divider hdash _)
      (Word.ofText?_letteredEquals ho hs hletter value) htakes
  | letteredDirectly hletter =>
    obtain ⟨hdash, -, -⟩ := ho.letter_plain s hs _ hletter
    exact readAs_attached (letter_ne_divider hdash _)
      (Word.ofText?_letteredDirectly ho hs hletter hvalue.ne_nil hvalue.no_equals) htakes

/-- Every name of a flag comes down to the flag. -/
theorem readAs_of_namedBy (ho : Orderly switches) (hs : s ∈ switches)
    (htakes : s.takesValue = false) (h : s.NamedBy switches name) :
    ReadAs switches ['-' :: '-' :: name] (.flag s.key) :=
  readAs_flag (name_ne_divider h.1) (Word.ofText?_named ho hs h) htakes

/-- Rows of arguments that come down to one event each come down to the row of these. -/
theorem ReadAs.append {arguments rest : List (List Char)} {event : Event} {restWords : List Word}
    {events : List Event} (h : ReadAs switches arguments event)
    (hrest : Word.ofTexts? switches rest = some restWords)
    (hevents : Event.ofWords switches restWords = events) :
    ∃ words, Word.ofTexts? switches (arguments ++ rest) = some words ∧
      Event.ofWords switches words = event :: events := by
  obtain ⟨words, hwords, hofWords⟩ := h
  exact ⟨_, hwords rest restWords hrest, (hofWords restWords).trans (congrArg _ hevents)⟩

end

end RandomDelay.CommandLine
