import OsdLatency.Proofs.Text.Classes
import OsdLatency.Text.Scanner

/-!
# What scanners accept

Every scanner is described by the texts it takes. A scanner of runs takes a run exactly if the run
is followed by a boundary, a search for the shortest text stops at the first closing character that
it does not have to pass over, and a search in a line stops at the first place that is not refused.

## Main definitions

* `IsRun`, `Boundary` — a non-empty run of a class, and a rest that does not go on with the class
* `Passes` — a text in which no closing character is followed by what is looked for
* `Refused` — a text at none of whose places a scanner accepts

## Main results

* `Scanner.run_eq_some_iff`, `Scanner.literal_eq_some_iff`, `Scanner.upTo_eq_some_iff` — what the
  scanners take
* `Scanner.upTo_append`, `Scanner.findFirst_append` — a part of a text can be left out of a search
* `Scanner.findFirst_eq_some_iff` — the first place where a scanner accepts
-/

namespace OsdLatency.Text

/-- Some characters of a class, at least one. -/
def IsRun (isMember : Char → Bool) (text : List Char) : Prop :=
  text ≠ [] ∧ ∀ c ∈ text, isMember c = true

/-- A text that does not go on with a character of a class. -/
def Boundary (isMember : Char → Bool) (rest : List Char) : Prop :=
  ∀ c ∈ rest.head?, isMember c = false

/-- White space that may be missing. -/
def IsPad (text : List Char) : Prop := ∀ c ∈ text, isBlank c = true

section Runs

variable {p q : Char → Bool} {c : Char} {text rest : List Char}

-- Only the characters of the text are looked at, never all characters there are.
instance : Decidable (IsRun p text) :=
  @instDecidableAnd _ _ inferInstance (List.decidableBAll _ text)

instance : Decidable (Boundary p rest) := Option.decidableForallMem rest.head?

instance : Decidable (IsPad text) := List.decidableBAll _ text

@[simp] theorem boundary_nil : Boundary p [] := by
  intro c hc
  simp at hc

@[simp] theorem boundary_cons : Boundary p (c :: rest) ↔ p c = false := by
  simp [Boundary]

theorem IsRun.isPad (h : IsRun isBlank text) : IsPad text := h.2

@[simp] theorem isPad_nil : IsPad [] := by
  intro c hc
  simp at hc

/-- A run begins with a character of its class. -/
theorem IsRun.exists_cons (h : IsRun p text) :
    ∃ c others, text = c :: others ∧ p c = true := by
  obtain ⟨hne, hall⟩ := h
  cases text with
  | nil => exact absurd rfl hne
  | cons c others => exact ⟨c, others, rfl, hall c List.mem_cons_self⟩

theorem IsRun.boundary (h : IsRun p text) (hpq : ∀ c, p c = true → q c = false) :
    Boundary q text := by
  obtain ⟨c, others, rfl, hc⟩ := h.exists_cons
  exact boundary_cons.mpr (hpq c hc)

/-- A run of one class is a boundary of every class apart from it. -/
theorem IsRun.boundary_append (h : IsRun p text) (hpq : ∀ c, p c = true → q c = false) :
    Boundary q (text ++ rest) := by
  obtain ⟨c, others, rfl, hc⟩ := h.exists_cons
  exact boundary_cons.mpr (hpq c hc)

theorem IsRun.not_mem (h : IsRun p text) (hc : p c = false) : c ∉ text := by
  intro hmem
  simp [h.2 c hmem] at hc

theorem IsPad.not_mem (h : IsPad text) (hc : isBlank c = false) : c ∉ text := by
  intro hmem
  simp [h c hmem] at hc

theorem IsPad.append (h : IsPad text) (hrest : IsPad rest) : IsPad (text ++ rest) := by
  intro c hc
  rcases List.mem_append.mp hc with hc | hc
  · exact h c hc
  · exact hrest c hc

theorem IsPad.of_prefix (h : IsPad text) (hrest : rest <+: text) : IsPad rest :=
  fun c hc => h c (hrest.subset hc)

theorem IsRun.of_prefix (h : IsRun p text) (hne : rest ≠ []) (hrest : rest <+: text) :
    IsRun p rest :=
  ⟨hne, fun c hc => h.2 c (hrest.subset hc)⟩

/-- White space is a boundary of every class apart from it, if what follows is one. -/
theorem IsPad.boundary_append (h : IsPad text) (hq : ∀ c, isBlank c = true → q c = false)
    (hrest : Boundary q rest) : Boundary q (text ++ rest) := by
  cases text with
  | nil => exact hrest
  | cons c text => exact boundary_cons.mpr (hq c (h c List.mem_cons_self))

theorem IsRun.imp (h : IsRun p text) (hpq : ∀ c, p c = true → q c = true) : IsRun q text :=
  ⟨h.1, fun c hc => hpq c (h.2 c hc)⟩

theorem boundary_dropWhile (input : List Char) : Boundary p (input.dropWhile p) := by
  intro c hc
  have := List.head?_dropWhile_not p input
  rw [Option.mem_def.mp hc] at this
  simpa using this

theorem takeWhile_append_of_boundary (htext : ∀ c ∈ text, p c = true) (hrest : Boundary p rest) :
    (text ++ rest).takeWhile p = text := by
  rw [List.takeWhile_append_of_pos htext]
  cases rest with
  | nil => simp
  | cons c rest => simp [boundary_cons.mp hrest]

theorem dropWhile_append_of_boundary (htext : ∀ c ∈ text, p c = true) (hrest : Boundary p rest) :
    (text ++ rest).dropWhile p = rest := by
  rw [List.dropWhile_append_of_pos htext]
  cases rest with
  | nil => simp
  | cons c rest => simp [boundary_cons.mp hrest]

/-- The first place of a character is behind a text without it. -/
theorem append_cons_inj_of_not_mem_front {x x' y y' : List Char} (hx : c ∉ x) (hx' : c ∉ x')
    (h : x ++ c :: y = x' ++ c :: y') : x = x' ∧ y = y' := by
  have hfront {z : List Char} (hz : c ∉ z) : ∀ d ∈ z, (d != c) = true := fun d hd =>
    bne_iff_ne.mpr (ne_of_mem_of_not_mem hd hz)
  have hend (z : List Char) : Boundary (· != c) (c :: z) := boundary_cons.mpr (by simp)
  have htake := congrArg (List.takeWhile (· != c)) h
  have hdrop := congrArg (List.dropWhile (· != c)) h
  rw [takeWhile_append_of_boundary (hfront hx) (hend y),
    takeWhile_append_of_boundary (hfront hx') (hend y')] at htake
  rw [dropWhile_append_of_boundary (hfront hx) (hend y),
    dropWhile_append_of_boundary (hfront hx') (hend y')] at hdrop
  exact ⟨htake, (List.cons.inj hdrop).2⟩

end Runs

/-- A front of two texts is a front of the first one or reaches into the second one. -/
theorem prefix_append_cases {front first second : List Char} (h : front <+: first ++ second) :
    front <+: first ∨ ∃ more, front = first ++ more ∧ more ≠ [] ∧ more <+: second := by
  rcases List.prefix_or_prefix_of_prefix h (List.prefix_append first second) with hle | ⟨more, rfl⟩
  · exact Or.inl hle
  · cases more with
    | nil => exact Or.inl (by simp)
    | cons c more =>
      exact Or.inr ⟨c :: more, rfl, by simp, (List.prefix_append_right_inj first).mp h⟩

namespace Scanner

variable {α β : Type}

theorem bind_apply (scanner : Scanner α) (next : α → Scanner β) (input : List Char) :
    (scanner >>= next) input = (scanner input).bind fun found => next found.1 found.2 := rfl

@[simp] theorem pure_apply (value : α) (input : List Char) :
    (pure value : Scanner α) input = some (value, input) := rfl

theorem orElse_apply (first second : Scanner α) (input : List Char) :
    (first <|> second) input = (first input).or (second input) := by
  change (first input <|> second input) = _
  cases first input <;> rfl

/-- A sequence accepts if the second scanner accepts what the first one leaves. -/
theorem bind_eq_some_iff {scanner : Scanner α} {next : α → Scanner β} {input : List Char}
    {result : β × List Char} :
    (scanner >>= next) input = some result ↔
      ∃ value rest, scanner input = some (value, rest) ∧ next value rest = some result := by
  rw [bind_apply, Option.bind_eq_some_iff]
  constructor
  · rintro ⟨⟨value, rest⟩, h, hnext⟩
    exact ⟨value, rest, h, hnext⟩
  · rintro ⟨value, rest, h, hnext⟩
    exact ⟨(value, rest), h, hnext⟩

theorem bind_of_eq_some {scanner : Scanner α} {next : α → Scanner β} {input rest : List Char}
    {value : α} (h : scanner input = some (value, rest)) :
    (scanner >>= next) input = next value rest := by
  rw [bind_apply, h]
  rfl

theorem bind_of_eq_none {scanner : Scanner α} {next : α → Scanner β} {input : List Char}
    (h : scanner input = none) : (scanner >>= next) input = none := by
  rw [bind_apply, h]
  rfl

/-! ### Fixed texts and runs -/

theorem literal_eq_some_iff {text : String} {input rest : List Char} {value : Unit} :
    literal text input = some (value, rest) ↔ input = text.toList ++ rest := by
  unfold literal
  split
  · rename_i h
    obtain ⟨left, rfl⟩ := List.isPrefixOf_iff_prefix.mp h
    simp [eq_comm]
  · rename_i h
    constructor
    · simp
    · rintro rfl
      exact absurd (List.isPrefixOf_iff_prefix.mpr (List.prefix_append _ _)) h

@[simp] theorem literal_append (text : String) (rest : List Char) :
    literal text (text.toList ++ rest) = some ((), rest) :=
  literal_eq_some_iff.mpr rfl

theorem literal_eq_none {text : String} {input : List Char} (h : ¬ text.toList <+: input) :
    literal text input = none := by
  unfold literal
  rw [if_neg fun hp => h (List.isPrefixOf_iff_prefix.mp hp)]

theorem run_eq_some_iff {p : Char → Bool} {input taken rest : List Char} :
    run p input = some (taken, rest) ↔
      input = taken ++ rest ∧ IsRun p taken ∧ Boundary p rest := by
  unfold run
  constructor
  · intro h
    -- A run is not empty: this is where the scanner differs from `takeWhile`.
    by_cases hempty : (input.takeWhile p).isEmpty
    · simp [hempty] at h
    · simp only [hempty, Bool.false_eq_true, if_false, Option.some.injEq, Prod.mk.injEq] at h
      obtain ⟨rfl, rfl⟩ := h
      refine ⟨(List.takeWhile_append_dropWhile).symm, ⟨by simpa using hempty, ?_⟩,
        boundary_dropWhile input⟩
      exact fun c hc => List.mem_takeWhile_imp hc
  · rintro ⟨rfl, ⟨hne, hall⟩, hrest⟩
    simp [takeWhile_append_of_boundary hall hrest, dropWhile_append_of_boundary hall hrest, hne]

theorem run_append {p : Char → Bool} {taken rest : List Char} (htaken : IsRun p taken)
    (hrest : Boundary p rest) : run p (taken ++ rest) = some (taken, rest) :=
  run_eq_some_iff.mpr ⟨rfl, htaken, hrest⟩

theorem digits_append {taken rest : List Char} (htaken : IsRun isDigit taken)
    (hrest : Boundary isDigit rest) : digits (taken ++ rest) = some (taken, rest) :=
  run_append htaken hrest

theorem run_eq_none {p : Char → Bool} {input : List Char} (h : Boundary p input) :
    run p input = none := by
  cases input with
  | nil => rfl
  | cons c rest => simp [run, boundary_cons.mp h]

theorem blanks_eq_some_iff {input rest : List Char} {value : Unit} :
    blanks input = some (value, rest) ↔
      ∃ gap, input = gap ++ rest ∧ IsRun isBlank gap ∧ Boundary isBlank rest := by
  simp only [blanks, bind_eq_some_iff, pure_apply, run_eq_some_iff]
  constructor
  · rintro ⟨gap, left, ⟨rfl, hgap, hleft⟩, h⟩
    obtain rfl : left = rest := by simpa using h
    exact ⟨gap, rfl, hgap, hleft⟩
  · rintro ⟨gap, rfl, hgap, hrest⟩
    exact ⟨gap, rest, ⟨rfl, hgap, hrest⟩, rfl⟩

theorem blanks_append {gap rest : List Char} (hgap : IsRun isBlank gap)
    (hrest : Boundary isBlank rest) : blanks (gap ++ rest) = some ((), rest) :=
  blanks_eq_some_iff.mpr ⟨gap, rfl, hgap, hrest⟩

theorem blanks_eq_none {input : List Char} (h : Boundary isBlank input) : blanks input = none :=
  bind_of_eq_none (run_eq_none h)

theorem optionalBlanks_eq_some_iff {input rest : List Char} {value : Unit} :
    optionalBlanks input = some (value, rest) ↔
      ∃ pad, input = pad ++ rest ∧ IsPad pad ∧ Boundary isBlank rest := by
  simp only [optionalBlanks, Option.some.injEq, Prod.mk.injEq, true_and]
  constructor
  · rintro rfl
    exact ⟨input.takeWhile isBlank, (List.takeWhile_append_dropWhile).symm,
      fun c hc => List.mem_takeWhile_imp hc, boundary_dropWhile input⟩
  · rintro ⟨pad, rfl, hpad, hrest⟩
    exact dropWhile_append_of_boundary hpad hrest

theorem optionalBlanks_append {pad rest : List Char} (hpad : IsPad pad)
    (hrest : Boundary isBlank rest) : optionalBlanks (pad ++ rest) = some ((), rest) :=
  optionalBlanks_eq_some_iff.mpr ⟨pad, rfl, hpad, hrest⟩

/-- Among names none of which begins another one, at most one stands at the front. -/
theorem oneOf_eq_some_iff {name : α → String} {choices : List α}
    (hname : ∀ a ∈ choices, ∀ b ∈ choices, (name a).toList <+: (name b).toList → a = b)
    {input rest : List Char} {choice : α} :
    oneOf name choices input = some (choice, rest) ↔
      choice ∈ choices ∧ input = (name choice).toList ++ rest := by
  unfold oneOf
  rw [List.findSome?_eq_some_iff]
  constructor
  · rintro ⟨before, a, after, rfl, ha, -⟩
    obtain ⟨⟨value, left⟩, hleft, heq⟩ := Option.map_eq_some_iff.mp ha
    obtain ⟨rfl, rfl⟩ : a = choice ∧ left = rest := by simpa using heq
    exact ⟨by simp, literal_eq_some_iff.mp hleft⟩
  · rintro ⟨hmem, rfl⟩
    obtain ⟨before, after, rfl, hnot⟩ := List.eq_append_cons_of_mem hmem
    refine ⟨before, choice, after, rfl, by simp, ?_⟩
    intro a ha
    rw [Option.map_eq_none_iff]
    refine literal_eq_none fun hprefix => ?_
    -- Two names at the front of one text begin one another.
    rcases List.prefix_or_prefix_of_prefix hprefix (List.prefix_append _ rest) with h | h
    · exact hnot (hname a (by simp [ha]) choice (by simp) h ▸ ha)
    · exact hnot ((hname choice (by simp) a (by simp [ha]) h).symm ▸ ha)

/-! ### Searches -/

/-- In `text ++ rest`, no closing character of `text` is followed by something that is accepted, and
the text stays within its line. -/
def Passes (close : Char) (next : Scanner β) (text rest : List Char) : Prop :=
  '\n' ∉ text ∧ ∀ before after, text = before ++ close :: after → next (after ++ rest) = none

theorem passes_nil {close : Char} {next : Scanner β} {rest : List Char} :
    Passes close next [] rest :=
  ⟨by simp, by simp⟩

/-- A text without the closing character is passed over. -/
theorem passes_of_not_mem {close : Char} {next : Scanner β} {text rest : List Char}
    (hline : '\n' ∉ text) (hclose : close ∉ text) : Passes close next text rest := by
  refine ⟨hline, ?_⟩
  rintro before after rfl
  simp at hclose

theorem Passes.append {close : Char} {next : Scanner β} {first second rest : List Char}
    (hfirst : Passes close next first (second ++ rest)) (hsecond : Passes close next second rest) :
    Passes close next (first ++ second) rest := by
  refine ⟨by simp [hfirst.1, hsecond.1], ?_⟩
  intro before after h
  -- The closing character stands in one of the two texts, or at the seam.
  rcases List.append_eq_append_iff.mp h with ⟨left, rfl, hleft⟩ | ⟨left, rfl, hleft⟩
  · exact hsecond.2 left after hleft
  · cases left with
    | nil =>
      have := hsecond.2 [] after (by simpa using hleft.symm)
      exact this
    | cons c left =>
      obtain ⟨rfl, rfl⟩ : close = c ∧ after = left ++ second := by simpa using hleft
      rw [List.append_assoc]
      exact hfirst.2 before left rfl

theorem passes_cons {close : Char} {next : Scanner β} {c : Char} {text rest : List Char}
    (hline : c ≠ '\n') (hnext : c = close → next (text ++ rest) = none)
    (htext : Passes close next text rest) : Passes close next (c :: text) rest := by
  refine ⟨by simp [hline.symm, htext.1], ?_⟩
  intro before after h
  cases before with
  | nil =>
    obtain ⟨rfl, rfl⟩ : c = close ∧ text = after := by simpa using h
    exact hnext rfl
  | cons d before =>
    obtain ⟨rfl, rfl⟩ : c = d ∧ text = before ++ close :: after := by simpa using h
    exact htext.2 before after rfl

/-- A search for the shortest text goes on behind what is passed over. -/
theorem upTo_append {close : Char} {next : Scanner β} {text rest : List Char}
    (h : Passes close next text rest) :
    upTo close next (text ++ rest) =
      (upTo close next rest).map fun found => ((text ++ found.1.1, found.1.2), found.2) := by
  induction text with
  | nil => simp
  | cons c text ih =>
    have hc : c ≠ '\n' := fun hc => h.1 (by simp [hc])
    -- The search does not stop at this character.
    have hhere : (if c = close then next (text ++ rest) else none) = none := by
      split
      · rename_i hclose
        exact h.2 [] text (by simp [hclose])
      · rfl
    have htext : Passes close next text rest := by
      refine ⟨fun hmem => h.1 (List.mem_cons_of_mem c hmem), ?_⟩
      rintro before after rfl
      exact h.2 (c :: before) after rfl
    simp only [List.cons_append, upTo, hhere, hc, if_false, ih htext, Option.map_map]
    rfl

/-- The search ends at a closing character that is followed by something accepted. -/
theorem upTo_close {close : Char} {next : Scanner β} {rest left : List Char} {found : β}
    (h : next rest = some (found, left)) :
    upTo close next (close :: rest) = some (([], found), left) := by
  simp [upTo, h]

/-- What a search for the shortest text finds. -/
theorem upTo_eq_some_iff {close : Char} {next : Scanner β} {input text left : List Char}
    {found : β} :
    upTo close next input = some ((text, found), left) ↔
      ∃ rest, input = text ++ close :: rest ∧ next rest = some (found, left) ∧
        Passes close next text (close :: rest) := by
  constructor
  · intro h
    -- The induction follows the search: it stops here, leaves the line here, or goes on.
    induction input generalizing text with
    | nil => simp [upTo] at h
    | cons c input ih =>
      simp only [upTo] at h
      cases hhere : (if c = close then next input else none) with
      | some result =>
        obtain ⟨b, left'⟩ := result
        simp only [hhere, Option.some.injEq, Prod.mk.injEq] at h
        obtain ⟨⟨rfl, rfl⟩, rfl⟩ := h
        by_cases hclose : c = close
        · rw [if_pos hclose] at hhere
          exact ⟨input, by simp [hclose], hhere, passes_nil⟩
        · simp [hclose] at hhere
      | none =>
        simp only [hhere] at h
        by_cases hline : c = '\n'
        · simp [hline] at h
        · simp only [hline, if_false, Option.map_eq_some_iff] at h
          obtain ⟨⟨⟨text', found'⟩, left'⟩, hfound, heq⟩ := h
          obtain ⟨⟨rfl, rfl⟩, rfl⟩ :
              (c :: text' = text ∧ found' = found) ∧ left' = left := by simpa using heq
          obtain ⟨rest, rfl, hnext, hpass⟩ := ih hfound
          refine ⟨rest, rfl, hnext, passes_cons hline ?_ hpass⟩
          intro hclose
          rwa [if_pos hclose] at hhere
  · rintro ⟨rest, rfl, hnext, hpass⟩
    rw [upTo_append hpass, upTo_close hnext]
    simp

/-- A text that is passed over to its end holds nothing. -/
theorem upTo_eq_none {close : Char} {next : Scanner β} {input : List Char}
    (h : Passes close next input []) : upTo close next input = none := by
  have := upTo_append h
  rwa [List.append_nil] at this

/-- Where a text could end, the search ends there or earlier. -/
theorem upTo_append_close {close : Char} {next : Scanner β} {text rest left : List Char} {found : β}
    (hline : '\n' ∉ text) (h : next rest = some (found, left)) :
    ∃ text' found' left', upTo close next (text ++ close :: rest) = some ((text', found'), left') ∧
      (text'.length < text.length ∨ text' = text ∧ found' = found) := by
  induction text with
  | nil => exact ⟨[], found, left, upTo_close h, Or.inr ⟨rfl, rfl⟩⟩
  | cons c text ih =>
    have hc : c ≠ '\n' := fun hc => hline (by simp [hc])
    obtain ⟨text', found', left', hfound, hlength⟩ := ih fun hmem =>
      hline (List.mem_cons_of_mem c hmem)
    simp only [List.cons_append, upTo, hc, if_false, hfound]
    -- The search can end here already; else it does what it does for the rest.
    cases (if c = close then next (text ++ close :: rest) else none) with
    | some here => exact ⟨[], here.1, here.2, rfl, Or.inl (by simp)⟩
    | none =>
      refine ⟨c :: text', found', left', rfl, ?_⟩
      rcases hlength with hlt | ⟨rfl, rfl⟩
      · exact Or.inl (by simpa using hlt)
      · exact Or.inr ⟨rfl, rfl⟩

/-- The scanner accepts at no place of `text` in `text ++ rest`. -/
def Refused (scanner : Scanner α) (text rest : List Char) : Prop :=
  ∀ before after, text = before ++ after → after ≠ [] → scanner (after ++ rest) = none

theorem refused_nil {scanner : Scanner α} {rest : List Char} : Refused scanner [] rest := by
  intro before after h hne
  simp_all

theorem refused_cons {scanner : Scanner α} {c : Char} {text rest : List Char} :
    Refused scanner (c :: text) rest ↔
      scanner (c :: text ++ rest) = none ∧ Refused scanner text rest := by
  constructor
  · intro h
    refine ⟨h [] (c :: text) rfl (by simp), ?_⟩
    rintro before after rfl hne
    exact h (c :: before) after rfl hne
  · rintro ⟨hhere, htext⟩ before after h hne
    -- A place of the text is its first one or a place of the rest.
    cases before with
    | nil =>
      obtain rfl : c :: text = after := h
      exact hhere
    | cons d before =>
      obtain ⟨rfl, rfl⟩ : c = d ∧ text = before ++ after := by simpa using h
      exact htext before after rfl hne

/-- A search in a line goes on behind what is refused. -/
theorem findFirst_append {scanner : Scanner α} {text rest : List Char}
    (h : Refused scanner text rest) :
    findFirst scanner (text ++ rest) = findFirst scanner rest := by
  induction text with
  | nil => rfl
  | cons c text ih =>
    obtain ⟨hhere, htext⟩ := refused_cons.mp h
    rw [List.cons_append] at hhere ⊢
    simp only [findFirst, hhere, ih htext]

theorem findFirst_of_eq_some {scanner : Scanner α} {input rest : List Char} {found : α}
    (h : scanner input = some (found, rest)) : findFirst scanner input = some found := by
  cases input with
  | nil => simp [findFirst, h]
  | cons c input => simp [findFirst, h]

/-- What a search in a line finds is what the scanner finds at the first place that is not
refused. -/
theorem findFirst_eq_some_iff {scanner : Scanner α} {line : List Char} {found : α} :
    findFirst scanner line = some found ↔
      ∃ before input rest, line = before ++ input ∧ scanner input = some (found, rest) ∧
        Refused scanner before input := by
  constructor
  · intro h
    induction line with
    | nil =>
      obtain ⟨⟨found', rest⟩, hfound, rfl⟩ := Option.map_eq_some_iff.mp h
      exact ⟨[], [], rest, rfl, hfound, refused_nil⟩
    | cons c line ih =>
      -- The first place counts if the scanner accepts there; else it is refused and the rest
      -- decides.
      cases hhere : scanner (c :: line) with
      | some result =>
        obtain ⟨found', rest⟩ := result
        obtain rfl : found' = found := by simpa [findFirst, hhere] using h
        exact ⟨[], c :: line, rest, rfl, hhere, refused_nil⟩
      | none =>
        simp only [findFirst, hhere] at h
        obtain ⟨before, input, rest, rfl, hfound, hrefused⟩ := ih h
        exact ⟨c :: before, input, rest, rfl, hfound, refused_cons.mpr ⟨hhere, hrefused⟩⟩
  · rintro ⟨before, input, rest, rfl, hfound, hrefused⟩
    rw [findFirst_append hrefused, findFirst_of_eq_some hfound]

theorem findFirst_eq_none_iff {scanner : Scanner α} {line : List Char} :
    findFirst scanner line = none ↔
      ∀ before after, line = before ++ after → scanner after = none := by
  constructor
  · rintro h before after rfl
    by_contra hne
    obtain ⟨⟨found, rest⟩, hfound⟩ := Option.ne_none_iff_exists'.mp hne
    -- The first place that is not refused lies at `after` or in front of it.
    induction before with
    | nil => simp [findFirst_of_eq_some hfound] at h
    | cons c before ih =>
      cases hhere : scanner (c :: (before ++ after)) with
      | some result => simp [findFirst, hhere] at h
      | none => exact ih (by simpa [findFirst, hhere] using h)
  · intro h
    -- The search passes over the whole line and is refused at its end as well.
    have hrefused : Refused scanner line [] := by
      rintro before after rfl -
      simpa using h before after rfl
    have := findFirst_append hrefused
    rw [List.append_nil] at this
    rw [this, findFirst, h line [] (by simp)]
    rfl

/-- A search for all items goes on behind what is refused. -/
theorem findAll_append_of_refused {scanner : Scanner α} {text rest : List Char}
    (h : Refused scanner text rest) : findAll scanner (text ++ rest) = findAll scanner rest := by
  induction text with
  | nil => rfl
  | cons c text ih =>
    obtain ⟨hhere, htext⟩ := refused_cons.mp h
    have hskip : findAll scanner (c :: (text ++ rest)) = findAll scanner (text ++ rest) :=
      findAll_cons_of_none hhere
    rw [List.cons_append, hskip, ih htext]

/-- A search for all items goes on behind what is taken. -/
theorem findAll_append_of_eq_some {scanner : Scanner α} {taken rest : List Char} {found : α}
    (hne : taken ≠ []) (h : scanner (taken ++ rest) = some (found, rest)) :
    findAll scanner (taken ++ rest) = found :: findAll scanner rest := by
  obtain ⟨c, others, rfl⟩ := List.exists_cons_of_ne_nil hne
  exact findAll_cons_of_some h rfl

end Scanner

end OsdLatency.Text
