import RandomDelay.CommandLine.Event

/-!
# Where values come from

An argument is only read as an option that is there to choose from (`Word.isAmong_of_ofText?`). A
value among the events of a row of words therefore belongs to one of these options, and to one that
takes a value (`Event.isAmong_of_mem_ofWords`), also where it comes out of a bundle of letters.
-/

set_option autoImplicit false

namespace RandomDelay.CommandLine

variable {switches : List Switch}

theorem mem_of_withLetter? {c : Char} {s : Switch} (h : withLetter? switches c = some s) :
    s ∈ switches := List.mem_of_find?_eq_some h

namespace Word

/-- Words whose option, if they are one, is among the given ones. -/
def IsAmong (switches : List Switch) : Word → Prop
  | .option s _ _ => s ∈ switches
  | _ => True

theorem isAmong_of_spelled? {attached : Option (List Char)} {text : List Char} {word : Word}
    (h : spelled? switches attached text = some word) : word.IsAmong switches := by
  rw [spelled?.eq_def] at h
  split at h
  · obtain ⟨s, hs, rfl⟩ := Option.map_eq_some_iff.1 h
    exact List.mem_of_find?_eq_some hs
  · obtain ⟨s, hs, rfl⟩ := Option.map_eq_some_iff.1 h
    exact mem_of_withLetter? hs
  · cases h

theorem isAmong_of_assigned? {text : List Char} {word : Word}
    (h : assigned? switches text = some word) : word.IsAmong switches := by
  rw [assigned?] at h
  split at h
  · exact isAmong_of_spelled? h
  · cases h

theorem isAmong_of_mem_candidates {text : List Char} {word : Word}
    (h : word ∈ candidates switches text) : word.IsAmong switches := by
  rw [candidates.eq_def] at h
  split at h
  · obtain ⟨s, hs, rfl⟩ := List.mem_map.1 h
    exact (List.mem_filter.1 hs).1
  · obtain ⟨s, hs, rfl⟩ := List.mem_map.1 h
    exact (List.mem_filter.1 hs).1
  · cases h

/-- An argument is read as an option only if there is that option. -/
theorem isAmong_of_ofText? {text : List Char} {word : Word}
    (h : ofText? switches text = some word) : word.IsAmong switches := by
  rw [ofText?] at h
  split at h
  · cases h
    trivial
  · split at h
    · rename_i w hw
      cases h
      rcases Option.or_eq_some_iff.1 hw with hspelled | ⟨-, hassigned⟩
      · exact isAmong_of_spelled? hspelled
      · exact isAmong_of_assigned? hassigned
    · split at h
      · rename_i hcandidates
        cases h
        exact isAmong_of_mem_candidates (hcandidates ▸ List.mem_singleton_self word)
      · cases h
        split <;> trivial
      · cases h

end Word

namespace Event

/-- Events that give no value, or one to an option among the given ones that takes it. -/
def IsAmong (switches : List Switch) : Event → Prop
  | .value key _ => ∃ s ∈ switches, s.takesValue = true ∧ s.key = key
  | _ => True

/-- Openings whose events and whose waiting option are among the given options. -/
def Opened.IsAmong (switches : List Switch) (opened : Opened) : Prop :=
  (∀ e ∈ opened.1, e.IsAmong switches) ∧ ∀ s ∈ opened.2, s ∈ switches ∧ s.takesValue = true

theorem isAmong_bare {s : Switch} (hs : s ∈ switches) : Opened.IsAmong switches (bare s) := by
  rw [bare]
  cases hvalue : s.takesValue with
  | true =>
    constructor
    · intro e he
      cases he
    · rintro t ⟨⟩
      exact ⟨hs, hvalue⟩
  | false =>
    constructor
    · intro e he
      obtain rfl := List.mem_singleton.1 he
      trivial
    · rintro t ⟨⟩

theorem isAmong_cons_flag {key : Key} {opened : Opened} (h : opened.IsAmong switches) :
    Opened.IsAmong switches (.flag key :: opened.1, opened.2) := by
  constructor
  · intro e he
    cases he with
    | head => trivial
    | tail _ htail => exact h.1 e htail
  · exact h.2

/-- Letter by letter, a bundle is taken apart into options that are there. -/
theorem isAmong_bundle? {text : List Char} :
    ∀ {s : Switch} {opened : Opened}, bundle? switches s text = some opened →
      opened.IsAmong switches := by
  induction text with
  | nil =>
    intro s opened h
    cases h
  | cons c tail ih =>
    intro s opened h
    rw [bundle?] at h
    cases ht : withLetter? switches c with
    | none =>
      rw [ht] at h
      cases h
    | some t =>
      rw [ht] at h
      have hmem := mem_of_withLetter? ht
      simp only at h
      split at h
      · cases h
        exact isAmong_cons_flag (isAmong_bare hmem)
      · split at h
        · rename_i hvalue
          cases h
          -- the rest of the bundle is the value of its last option
          have hlast : Opened.IsAmong switches ([.value t.key tail], none) := by
            constructor
            · intro e he
              obtain rfl := List.mem_singleton.1 he
              exact ⟨t, hmem, hvalue, rfl⟩
            · rintro u ⟨⟩
          exact isAmong_cons_flag hlast
        · obtain ⟨rest, hrest, rfl⟩ := Option.map_eq_some_iff.1 h
          exact isAmong_cons_flag (ih hrest)

theorem isAmong_opened? {s : Switch} (hs : s ∈ switches) {byLetter : Bool}
    {attached : Option (List Char)} {opened : Opened}
    (h : opened? switches s byLetter attached = some opened) : opened.IsAmong switches := by
  cases attached with
  | none =>
    cases h
    exact isAmong_bare hs
  | some text =>
    rw [opened?] at h
    split at h
    · rename_i hvalue
      cases h
      constructor
      · intro e he
        obtain rfl := List.mem_singleton.1 he
        exact ⟨s, hs, hvalue, rfl⟩
      · rintro t ⟨⟩
    · split at h
      · exact isAmong_bundle? h
      · cases h

/-- An option that waits for a value and is followed by none cannot be used. -/
theorem ofWords_of_not_plain {s waiting : Switch} {byLetter : Bool} {attached : Option (List Char)}
    {events : List Event}
    (hopened : opened? switches s byLetter attached = some (events, some waiting))
    {rest : List Word} (hnext : ∀ text tail, rest = .plain text :: tail → False) :
    ofWords switches (.option s byLetter attached :: rest) = [.unusable] := by
  rw [ofWords, hopened]
  cases rest with
  | nil => rfl
  | cons w rest =>
    cases w with
    | plain text => exact absurd rfl (hnext text rest)
    | divider => rfl
    | option t byLetter attached => rfl
    | unknown => rfl

/-- Values go to options that are there and take them. -/
theorem isAmong_of_mem_ofWords {words : List Word} (h : ∀ w ∈ words, w.IsAmong switches) :
    ∀ e ∈ ofWords switches words, e.IsAmong switches := by
  induction words using ofWords.induct switches with
  | case1 =>
    intro e he
    cases he
  | case2 text rest ih =>
    rw [ofWords, List.forall_mem_cons]
    exact ⟨trivial, ih fun w hw => h w (List.mem_cons_of_mem _ hw)⟩
  | case3 rest ih =>
    rw [ofWords, List.forall_mem_cons]
    exact ⟨trivial, ih fun w hw => h w (List.mem_cons_of_mem _ hw)⟩
  | case4 rest ih =>
    rw [ofWords, List.forall_mem_cons]
    exact ⟨trivial, ih fun w hw => h w (List.mem_cons_of_mem _ hw)⟩
  | case5 s byLetter attached rest hopened =>
    rw [ofWords, hopened, List.forall_mem_singleton]
    trivial
  | case6 s byLetter attached rest events hopened ih =>
    have hs : s ∈ switches := h _ List.mem_cons_self
    rw [ofWords, hopened]
    show ∀ e ∈ events ++ ofWords switches rest, e.IsAmong switches
    rw [List.forall_mem_append]
    constructor
    · exact (isAmong_opened? hs hopened).1
    · exact ih fun w hw => h w (List.mem_cons_of_mem _ hw)
  | case7 s byLetter attached events waiting hopened text rest ih =>
    have hs : s ∈ switches := h _ List.mem_cons_self
    obtain ⟨hevents, hwaiting⟩ := isAmong_opened? hs hopened
    obtain ⟨hmem, hvalue⟩ := hwaiting waiting rfl
    rw [ofWords, hopened]
    show ∀ e ∈ events ++ .value waiting.key text :: ofWords switches rest, e.IsAmong switches
    rw [List.forall_mem_append]
    constructor
    · exact hevents
    · -- the next word is the value of the option that waited for it
      rw [List.forall_mem_cons]
      constructor
      · exact ⟨waiting, hmem, hvalue, rfl⟩
      · exact ih fun w hw => h w (List.mem_cons_of_mem _ (List.mem_cons_of_mem _ hw))
  | case8 s byLetter attached rest events waiting hopened hnext =>
    rw [ofWords_of_not_plain hopened hnext, List.forall_mem_singleton]
    trivial

end Event

end RandomDelay.CommandLine
