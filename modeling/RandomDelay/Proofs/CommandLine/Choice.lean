import RandomDelay.Proofs.CommandLine.Spelling
import RandomDelay.Proofs.Duration.RoundTrip
import RandomDelay.Proofs.Outcome

/-!
# Choices written as arguments

A caller of a tool chooses some of its settings (`Choice`), and a command line writes each choice in
one of the spellings of its option, in any order and any number of times (`Writes`). The values are
written the way the program itself writes durations and integers, and are read back.

The events of such a line are the choices in their order (`ofWords_of_writes`), and the settings are
for every option the value that was chosen last, or the usual one (`ofEvents_choices`).
-/

set_option autoImplicit false

namespace RandomDelay.CommandLine

open RandomDelay.Outcome

/-- A setting of a tool with the value chosen for it. -/
inductive Choice where
  | delay (d : Duration)
  | lower (d : Duration)
  | span (d : Duration)
  | count (n : ℤ)
  | seed (n : ℤ)
  | summarize (b : Bool)
deriving DecidableEq

namespace Choice

/-- Option that makes a choice. -/
def switch : Choice → Switch
  | .delay _ => .delay
  | .lower _ => .lower
  | .span _ => .span
  | .count _ => .count
  | .seed _ => .seed
  | .summarize true => .summary
  | .summarize false => .noSummary

/-- Text of a chosen value; whether to summarize is said by the option alone. -/
def valueText? : Choice → Option (List Char)
  | .delay d => some d.secondsText
  | .lower d => some d.secondsText
  | .span d => some d.secondsText
  | .count n => some (Text.signed n)
  | .seed n => some (Text.signed n)
  | .summarize _ => none

/-- Values that can be read back: durations from zero to `2 ^ 33` seconds, and integers of at most
4300 digits. -/
def Writable : Choice → Prop
  | .delay d => 0 ≤ d.micros ∧ d.micros ≤ 2 ^ 33 * 10 ^ 6
  | .lower d => 0 ≤ d.micros ∧ d.micros ≤ 2 ^ 33 * 10 ^ 6
  | .span d => 0 ≤ d.micros ∧ d.micros ≤ 2 ^ 33 * 10 ^ 6
  | .count n => (Text.plain n.natAbs).length ≤ 4300
  | .seed n => (Text.plain n.natAbs).length ≤ 4300
  | .summarize _ => True

instance : DecidablePred Writable := fun c =>
  match c with
  | .delay _ | .lower _ | .span _ => inferInstanceAs (Decidable (_ ∧ _))
  | .count _ | .seed _ => inferInstanceAs (Decidable (_ ≤ _))
  | .summarize _ => inferInstanceAs (Decidable True)

/-- Arguments that write a choice for a tool, in any spelling of its option. -/
inductive WrittenAs (tool : Tool) (c : Choice) : List (List Char) → Prop where
  | flag {name : List Char} : c.valueText? = none → c.switch.NamedBy tool.switches name →
      WrittenAs tool c ['-' :: '-' :: name]
  | valued {value : List Char} {arguments : List (List Char)} : c.valueText? = some value →
      Spelled tool.switches c.switch value arguments → WrittenAs tool c arguments

/-- What a choice comes down to. -/
def event (c : Choice) : Event :=
  match c.valueText? with
  | some text => .value c.switch.key text
  | none => .flag c.switch.key

/-- Delay that is chosen, if it is one. -/
def delay? : Choice → Option Duration
  | .delay d => some d
  | _ => none

/-- Lower bound that is chosen, if it is one. -/
def lower? : Choice → Option Duration
  | .lower d => some d
  | _ => none

/-- Width that is chosen, if it is one. -/
def span? : Choice → Option Duration
  | .span d => some d
  | _ => none

/-- Count that is chosen, if it is one. -/
def count? : Choice → Option ℤ
  | .count n => some n
  | _ => none

/-- Seed that is chosen, if it is one. -/
def seed? : Choice → Option (Option ℤ)
  | .seed n => some (some n)
  | _ => none

/-- Whether to summarize, if that is what is chosen. -/
def summarize? : Choice → Option Bool
  | .summarize b => some b
  | _ => none

end Choice

/-- Arguments that write choices for a tool one after the other. -/
inductive Writes (tool : Tool) : List Choice → List String → Prop where
  | nil : Writes tool [] []
  | cons {c : Choice} {choices : List Choice} {group : List (List Char)} {arguments : List String} :
      c.switch ∈ tool.switches → c.Writable → c.WrittenAs tool group →
      Writes tool choices arguments →
        Writes tool (c :: choices) (group.map String.ofList ++ arguments)

/-! ## Values -/

section

variable {switches : List Switch}

theorem ne_of_isDigit {c d : Char} (h : c.isDigit = true) (hd : d.isDigit = false) : c ≠ d := by
  rintro rfl
  rw [hd] at h
  cases h

theorem isValue_of_isDigit {c : Char} {rest : List Char} (hc : c.isDigit = true)
    (hequals : '=' ∉ c :: rest) : IsValue switches (c :: rest) := by
  refine ⟨Word.ofText?_of_isDigit hc, ?_, List.cons_ne_nil c rest, hequals⟩
  intro hdivider
  exact ne_of_isDigit hc rfl (List.cons.inj hdivider).1

theorem isValue_negative (ho : Orderly switches) {digits : List Char} (hne : digits ≠ [])
    (h : ∀ d ∈ digits, d.isDigit = true) : IsValue switches ('-' :: digits) := by
  refine ⟨Word.ofText?_negative ho hne h, ?_, List.cons_ne_nil _ digits, ?_⟩
  · rintro ⟨⟩
    cases h '-' List.mem_cons_self
  · intro hequals
    cases hequals with
    | tail _ hmem => cases h '=' hmem

theorem isValue_signed (ho : Orderly switches) (n : ℤ) : IsValue switches (Text.signed n) := by
  have hdigits : ∀ d ∈ Text.plain n.natAbs, d.isDigit = true := fun d => Text.isDigit_of_mem_plain
  by_cases hneg : n < 0
  · -- the dash could be that of a letter, but no option has a digit for its letter
    rw [Text.signed_of_neg hneg]
    exact isValue_negative ho (Text.plain_ne_nil _) hdigits
  · obtain ⟨c, rest, heq, hc⟩ := Text.exists_plain_eq_cons n.natAbs
    rw [Text.signed_of_not_neg hneg, heq]
    refine isValue_of_isDigit hc ?_
    rw [← heq]
    intro hequals
    cases hdigits '=' hequals

theorem isValue_secondsText {d : Duration} (h0 : 0 ≤ d.micros) :
    IsValue switches d.secondsText := by
  have htext := Binary64.fixedPlaces_of_nonneg 6 (Duration.toRat_seconds d).1
    (Duration.isNegative_seconds h0)
  obtain ⟨c, rest, heq, hc⟩ := Text.exists_plain_eq_cons (d.seconds.lastPlaces 6 / Nat.pow 10 6)
  -- attached to a letter, the value is not to be split at an equals sign
  have hequals : '=' ∉ d.secondsText := by
    intro hmem
    rcases Duration.mem_secondsText h0 hmem with hdigit | hpoint | hletter
    · cases hdigit
    · cases hpoint
    · cases hletter
  rw [Duration.secondsText, htext, heq] at hequals ⊢
  exact isValue_of_isDigit hc hequals

end

namespace Choice

variable {tool : Tool} {c : Choice}

theorem isValue_valueText {text : List Char} (hw : c.Writable) (h : c.valueText? = some text) :
    IsValue tool.switches text := by
  have ho := orderly_switches tool
  cases c with
  | delay d => exact Option.some.inj h ▸ isValue_secondsText hw.1
  | lower d => exact Option.some.inj h ▸ isValue_secondsText hw.1
  | span d => exact Option.some.inj h ▸ isValue_secondsText hw.1
  | count n => exact Option.some.inj h ▸ isValue_signed ho n
  | seed n => exact Option.some.inj h ▸ isValue_signed ho n
  | summarize b => cases h

theorem takesValue_switch (c : Choice) : c.switch.takesValue = c.valueText?.isSome := by
  cases c with
  | summarize b => cases b <;> rfl
  | _ => rfl

/-- However a choice is written, it comes down to its event. -/
theorem readAs_of_writtenAs (hmem : c.switch ∈ tool.switches) (hw : c.Writable)
    {group : List (List Char)} (h : c.WrittenAs tool group) :
    ReadAs tool.switches group c.event := by
  have ho := orderly_switches tool
  have htakes := c.takesValue_switch
  cases h with
  | flag hnone hname =>
    rw [hnone] at htakes
    rw [event, hnone]
    exact readAs_of_namedBy ho hmem htakes hname
  | valued hsome hspelled =>
    rw [hsome] at htakes
    rw [event, hsome]
    exact readAs_of_spelled ho hmem htakes (isValue_valueText hw hsome) hspelled

end Choice

theorem Writes.writable {tool : Tool} {choices : List Choice} {arguments : List String}
    (h : Writes tool choices arguments) : ∀ c ∈ choices, c.Writable := by
  induction h with
  | nil =>
    intro c hc
    cases hc
  | cons _ hw _ _ ih => exact List.forall_mem_cons.2 ⟨hw, ih⟩

/-- The events of a row of written choices are these choices. -/
theorem ofWords_of_writes {tool : Tool} {choices : List Choice} {arguments : List String}
    (h : Writes tool choices arguments) :
    ∃ words, Word.ofTexts? tool.switches (arguments.map String.toList) = some words ∧
      Event.ofWords tool.switches words = choices.map Choice.event := by
  induction h with
  | nil => exact ⟨[], rfl, rfl⟩
  | @cons c choices group arguments hmem hw hwritten hwrites ih =>
    obtain ⟨restWords, hrest, hevents⟩ := ih
    -- arguments are strings, but are read character by character
    have htexts : (group.map String.ofList ++ arguments).map String.toList =
        group ++ arguments.map String.toList := by
      rw [List.map_append, List.map_map]
      congr 1
      exact (List.map_congr_left fun text _ => String.toList_ofList).trans (List.map_id group)
    rw [htexts]
    exact (c.readAs_of_writtenAs hmem hw hwritten).append hrest hevents

/-! ## Settings -/

namespace Settings

/-- Settings in which the last choice for each option counts. -/
def ofChoices (choices : List Choice) : Settings where
  delay := .value (lastGiven Choice.delay? ({} : Pause).delay choices)
  lower := .value (lastGiven Choice.lower? ({} : Sampling).lower choices)
  span := .value (lastGiven Choice.span? ({} : Sampling).span choices)
  count := .value (lastGiven Choice.count? ({} : Sampling).count choices)
  seed := .value (lastGiven Choice.seed? ({} : Sampling).seed choices)
  summarize := lastGiven Choice.summarize? ({} : Sampling).summarize choices

theorem duration_secondsText {d : Duration} (h0 : 0 ≤ d.micros) (h : d.micros ≤ 2 ^ 33 * 10 ^ 6) :
    duration d.secondsText = .ok (.value d) := by
  have hvalue : IsValue [] d.secondsText := isValue_secondsText h0
  obtain ⟨w, hread, hmeaning⟩ := Duration.exists_written_secondsText h0 h
  have htext : Duration.ofText (String.ofList d.secondsText) = .ok d := by
    apply Duration.ofText_of_written _ hmeaning
    rw [String.toList_ofList, hread]
  rw [duration, if_neg hvalue.ne_divider, htext]

theorem integer_signed {n : ℤ} (h : (Text.plain n.natAbs).length ≤ 4300) :
    integer (Text.signed n) = .ok (.value n) := by
  have hvalue := isValue_signed (orderly_switches .sampling) n
  rw [integer, if_neg hvalue.ne_divider, Text.integer?_signed h]

/-- A further choice replaces the one before it for the same option. -/
theorem take_event {c : Choice} (hw : c.Writable) (choices : List Choice) :
    (ofChoices choices).take c.event = .ok (ofChoices (choices ++ [c])) := by
  simp only [ofChoices, lastGiven_append]
  cases c with
  | delay d =>
    show (duration d.secondsText >>= _) = _
    rw [duration_secondsText hw.1 hw.2]
    rfl
  | lower d =>
    show (duration d.secondsText >>= _) = _
    rw [duration_secondsText hw.1 hw.2]
    rfl
  | span d =>
    show (duration d.secondsText >>= _) = _
    rw [duration_secondsText hw.1 hw.2]
    rfl
  | count n =>
    show (integer (Text.signed n) >>= _) = _
    rw [integer_signed hw]
    rfl
  | seed n =>
    show (integer (Text.signed n) >>= _) = _
    rw [integer_signed hw]
    rfl
  | summarize b => cases b <;> rfl

theorem foldlM_take_events {choices : List Choice} (h : ∀ c ∈ choices, c.Writable) :
    (choices.map Choice.event).foldlM take {} = .ok (ofChoices choices) := by
  -- the last choice counts, so the row is taken apart at its end
  induction choices using List.reverseRecOn with
  | nil => rfl
  | append_singleton choices c ih =>
    obtain ⟨hbefore, hlast⟩ := List.forall_mem_append.1 h
    rw [List.map_append, List.foldlM_append, ih hbefore]
    show ((ofChoices choices).take c.event >>= _) = _
    rw [take_event (hlast c List.mem_cons_self)]
    rfl

/-- The settings of a row of choices. -/
theorem ofEvents_choices {choices : List Choice} (h : ∀ c ∈ choices, c.Writable) :
    ofEvents (choices.map Choice.event) = .ok (ofChoices choices) := by
  have hsurplus : (choices.map Choice.event).contains .surplus = false := by
    rw [List.contains_eq_mem, decide_eq_false_iff_not]
    intro hmem
    obtain ⟨c, -, hc⟩ := List.mem_map.1 hmem
    rw [Choice.event] at hc
    cases htext : c.valueText? <;> rw [htext] at hc <;> cases hc
  rw [ofEvents, foldlM_take_events h]
  show (if (choices.map Choice.event).contains .surplus then _ else _) = _
  rw [hsurplus]
  rfl

end Settings

end RandomDelay.CommandLine
