import OsdLatency.Proofs.Trace.Written

/-!
# Where the head of a line can begin

In the head of a line the size follows the kind of the operation. Behind that place every name is
followed by a number, so no other head begins within a line.

## Main definitions

* `Capture.Watch`, `Capture.watch` — a look-out for a size behind the kind of an operation

## Main results

* `Capture.watch_kind_size` — a size behind a kind is seen
* `Capture.Written.watch_eq` — none is seen behind the head of a written line
-/

namespace OsdLatency.Capture

open Text

variable {text rest gap pad name value : List Char}

/-- What has been seen last: nothing of note, the last letter of a kind of operation, or white space
behind such a letter. -/
inductive Watch
  | idle
  | letter
  | gap
deriving DecidableEq

/-- One character further. A size that follows a kind of operation is not let through. -/
def Watch.next (s : Watch) (c : Char) : Option Watch :=
  if isBlank c then some (if s = .idle then .idle else .gap)
  else if s = .gap ∧ c = 's' then none
  else if c = 'r' ∨ c = 'w' then some .letter
  else some .idle

/-- What has been seen last at the end of a text, or nothing if a size has followed a kind. -/
def watch (s : Watch) (text : List Char) : Option Watch := text.foldlM Watch.next s

section Watch

variable {s : Watch}

theorem watch_append (s : Watch) (text rest : List Char) :
    watch s (text ++ rest) = (watch s text).bind (watch · rest) :=
  List.foldlM_append

theorem watch_append_of_eq {s' : Watch} (h : watch s text = some s') (rest : List Char) :
    watch s (text ++ rest) = watch s' rest := by
  rw [watch_append, h]
  rfl

theorem watch_cons (s : Watch) (c : Char) (text : List Char) :
    watch s (c :: text) = (s.next c).bind (watch · text) := rfl

theorem watch_pad (hpad : IsPad pad) : watch .idle pad = some .idle := by
  induction pad with
  | nil => rfl
  | cons c pad ih =>
    have hc : isBlank c = true := hpad c List.mem_cons_self
    have hnext : Watch.next .idle c = some .idle := by simp [Watch.next, hc]
    rw [watch_cons, hnext]
    exact ih fun d hd => hpad d (List.mem_cons_of_mem c hd)

theorem watch_gap (hpad : IsPad pad) : watch .gap pad = some .gap := by
  induction pad with
  | nil => rfl
  | cons c pad ih =>
    have hc : isBlank c = true := hpad c List.mem_cons_self
    have hnext : Watch.next .gap c = some .gap := by simp [Watch.next, hc]
    rw [watch_cons, hnext]
    exact ih fun d hd => hpad d (List.mem_cons_of_mem c hd)

theorem watch_letter_blanks (hgap : IsRun isBlank gap) : watch .letter gap = some .gap := by
  obtain ⟨c, others, rfl, hc⟩ := hgap.exists_cons
  have hnext : Watch.next .letter c = some .gap := by simp [Watch.next, hc]
  rw [watch_cons, hnext]
  exact watch_gap fun d hd => hgap.2 d (List.mem_cons_of_mem c hd)

/-- Within a token nothing happens. -/
theorem watch_token (htoken : ∀ c ∈ text, isSolid c = true) (hs : s ≠ .gap) :
    ∃ s', s' ≠ .gap ∧ watch s text = some s' := by
  induction text generalizing s with
  | nil => exact ⟨s, hs, rfl⟩
  | cons c text ih =>
    obtain ⟨hc, htext⟩ := List.forall_mem_cons.mp htoken
    have hblank : isBlank c = false := isSolid_eq_true.mp hc
    obtain ⟨s', hs', hnext⟩ : ∃ s', s' ≠ .gap ∧ s.next c = some s' := by
      by_cases hletter : c = 'r' ∨ c = 'w'
      · exact ⟨.letter, by decide, by simp [Watch.next, hblank, hs, hletter]⟩
      · exact ⟨.idle, by decide, by simp [Watch.next, hblank, hs, hletter]⟩
    rw [watch_cons, hnext]
    exact ih htext hs'

/-- Without the last letters of a kind nothing happens. -/
theorem watch_of_not_mem (hr : 'r' ∉ text) (hw : 'w' ∉ text) : watch .idle text = some .idle := by
  induction text with
  | nil => rfl
  | cons c text ih =>
    simp only [List.mem_cons, not_or] at hr hw
    have hnext : Watch.next .idle c = some .idle := by
      simp [Watch.next, Ne.symm hr.1, Ne.symm hw.1]
    rw [watch_cons, hnext]
    exact ih hr.2 hw.2

/-- Behind a number nothing of note has been seen. -/
theorem watch_digits (s : Watch) (h : IsRun isDigit text) : watch s text = some .idle := by
  obtain ⟨d, others, rfl, hd⟩ := h.exists_cons
  have hblank : isBlank d = false := not_isBlank_of_isDigit hd
  have hs : d ≠ 's' := by rintro rfl; revert hd; decide
  have hr : d ≠ 'r' := by rintro rfl; revert hd; decide
  have hw : d ≠ 'w' := by rintro rfl; revert hd; decide
  -- The first digit ends whatever has been seen, and the others begin nothing.
  have hnext : s.next d = some .idle := by simp [Watch.next, hblank, hs, hr, hw]
  rw [watch_cons, hnext]
  have hothers {c : Char} (hc : isDigit c = false) : c ∉ others :=
    fun hmem => h.not_mem hc (List.mem_cons_of_mem d hmem)
  exact watch_of_not_mem (hothers (by decide)) (hothers (by decide))

/-- A name with a number behind it is let through. -/
theorem watch_item (hname : IsRun isSolid name) (hgap : IsRun isBlank gap)
    (hvalue : IsRun isDigit value) : watch .idle (name ++ (gap ++ value)) = some .idle := by
  obtain ⟨s, hs, hseen⟩ := watch_token hname.2 (show Watch.idle ≠ .gap by decide)
  rw [watch_append_of_eq hseen]
  cases s with
  | idle => rw [watch_append_of_eq (watch_pad hgap.isPad), watch_digits _ hvalue]
  | letter => rw [watch_append_of_eq (watch_letter_blanks hgap), watch_digits _ hvalue]
  | gap => exact absurd rfl hs

/-- A size behind the kind of an operation is not let through. -/
theorem watch_kind_size (s : Watch) (kind : OpKind) (hgap : IsRun isBlank gap) (rest : List Char) :
    watch s (kind.name.toList ++ (gap ++ ("size".toList ++ rest))) = none := by
  have hkind : watch s kind.name.toList = none ∨ watch s kind.name.toList = some .letter := by
    cases s <;> cases kind <;> decide
  rcases hkind with hnone | hletter
  · rw [watch_append, hnone]
    rfl
  · rw [watch_append_of_eq hletter, watch_append_of_eq (watch_letter_blanks hgap)]
    rfl

/-- Names with numbers behind them are let through. -/
theorem watch_spaced {pairs : List (List Char × List Char)}
    (h : Spaced (pairs.flatMap fun pair => [pair.1, pair.2]) text)
    (hvalue : ∀ pair ∈ pairs, IsRun isDigit pair.2) : watch .idle text = some .idle := by
  induction pairs generalizing text with
  | nil =>
    cases h
    rfl
  | cons pair pairs ih =>
    obtain ⟨hpair, hpairs⟩ := List.forall_mem_cons.mp hvalue
    obtain ⟨gap, text₁, hname, hgap, htext₁, rfl⟩ := spaced_cons_iff.mp h
    obtain ⟨gap', text₂, -, hgap', htext₂, rfl⟩ := spaced_cons_iff.mp htext₁
    -- A name and its number are read as one item, and then the white space behind them.
    have hsplit : pair.1 ++ (gap ++ (pair.2 ++ (gap' ++ text₂))) =
        (pair.1 ++ (gap ++ pair.2)) ++ (gap' ++ text₂) := by simp
    rw [hsplit, watch_append_of_eq (watch_item hname hgap hpair),
      watch_append_of_eq (watch_pad hgap'.isPad)]
    exact ih htext₂ hpairs

end Watch

/-! ### Behind the head of a line -/

section Lines

variable {items : List (List Char × List Char)}

theorem isSolid_of_isWord {c : Char} (h : isWord c = true) : isSolid c = true :=
  isSolid_eq_true.mpr (not_isBlank_of_isWord h)

theorem DetailList.watch_eq (h : DetailList items text) : watch .idle text = some .idle := by
  have hspells {item : List Char × List Char} {taken : List Char} (h : DetailSpells item taken) :
      watch .idle taken = some .idle := by
    obtain ⟨hname, hgap, hvalue⟩ := h
    exact watch_item (hname.imp fun _ => isSolid_of_isWord) hgap hvalue
  -- The parentheses around a detail are neither letters nor white space.
  induction h with
  | nil hpad => exact watch_pad hpad
  | cons hpad hitem _ _ _ ih =>
    rw [watch_append_of_eq (watch_pad hpad)]
    cases hitem with
    | plain htaken => rw [watch_append_of_eq (hspells htaken), ih]
    | nested hpad' htaken hpad'' =>
      have hopen : watch .idle ['('] = some .idle := by decide
      have hclose : watch .idle [')'] = some .idle := by decide
      rw [← List.singleton_append, List.append_assoc, watch_append_of_eq hopen, List.append_assoc,
        watch_append_of_eq (watch_pad hpad'), List.append_assoc,
        watch_append_of_eq (hspells htaken), List.append_assoc,
        watch_append_of_eq (watch_pad hpad''), watch_append_of_eq hclose, ih]

theorem Final.Spells.watch_eq {final : Final} (h : final.Spells text) :
    watch .idle text = some .idle := by
  obtain ⟨hpad, hgap, hlatency⟩ := h
  rw [watch_append_of_eq (watch_pad hpad), watch_item (isSolid_finalName _) hgap hlatency]

theorem Store.Spells.watch_eq {store : Store} {details : List (List Char × List Char)}
    (h : store.Spells text) (hpart : DetailsPart details store.details) :
    watch .idle text = some .idle := by
  obtain @⟨latency, gap, behind, part, final, hgap, hlatency, hending⟩ := h
  have hsplit : "bluestore_lat".toList ++ (gap ++ (latency ++ behind)) =
      ("bluestore_lat".toList ++ (gap ++ latency)) ++ behind := by simp
  rw [hsplit, watch_append_of_eq (watch_item (by decide) hgap hlatency)]
  cases hending with
  | plain hfinal => exact hfinal.watch_eq
  | @details list pad after _ hpad _ hafter =>
    obtain _ | hlist := hpart
    have hopen : watch .idle ['('] = some .idle := by decide
    have hclose : watch .idle [')'] = some .idle := by decide
    rw [watch_append_of_eq (watch_pad hpad), ← List.singleton_append, watch_append_of_eq hopen,
      watch_append_of_eq hlist.watch_eq, ← List.singleton_append, watch_append_of_eq hclose,
      hafter.watch_eq]

theorem Back.watch_eq {peers : Option (List Char)} {store : Store}
    {details : List (List Char × List Char)} (h : Back peers store text)
    (hpeers : PeersPart items peers) (hdetails : DetailsPart details store.details) :
    watch .idle text = some .idle := by
  cases h with
  | plain hstore => exact hstore.watch_eq hdetails
  | @peers list gap gap' text _ hgap _ hgap' hstore =>
    have hlabel : watch .idle "peers".toList = some .idle := by decide
    have hlist : watch .idle ('[' :: (list ++ [']'])) = some .idle := by
      -- No letter of a kind stands between the brackets.
      have hmem {c : Char} (hc : c ∉ ['[', ']', '(', ',', ')']) (hblank : isBlank c = false)
          (hdigit : isDigit c = false) : c ∉ '[' :: (list ++ [']']) := by
        simp only [List.mem_cons, List.mem_append, not_or] at hc ⊢
        refine ⟨hc.1, hpeers.peerList.not_mem hblank hdigit ?_, hc.2.1, by simp⟩
        simpa using hc.2.2
      exact watch_of_not_mem (hmem (by decide) (by decide) (by decide))
        (hmem (by decide) (by decide) (by decide))
    have hsplit : '[' :: (list ++ ']' :: (gap' ++ text)) =
        '[' :: (list ++ [']']) ++ (gap' ++ text) := by simp
    rw [watch_append_of_eq hlabel, watch_append_of_eq (watch_pad hgap.isPad), hsplit,
      watch_append_of_eq hlist, watch_append_of_eq (watch_pad hgap'.isPad)]
    exact hstore.watch_eq hdetails

end Lines

/-! ### Columns -/

section Columns

variable {s : Watch}

theorem watch_eq_none_of_behind (front : List Char) (h : ∀ s, watch s text = none) :
    watch s (front ++ text) = none := by
  rw [watch_append]
  cases watch s front with
  | none => rfl
  | some s' => exact h s'

/-- Columns of a kind and a size behind each other are seen. -/
theorem watch_eq_none_of_columns {kind : OpKind} {before after : List (List Char)}
    (h : columns text = before ++ kind.name.toList :: "size".toList :: after) :
    ∀ s, watch s text = none := by
  -- The text is read column by column until the two columns are the first ones.
  induction before generalizing text with
  | nil =>
    obtain ⟨pad, gap, rest, rfl, -, -, hgap, -⟩ := columns_eq_cons_cons_iff.mp h
    exact fun s => watch_eq_none_of_behind pad fun s => watch_kind_size s kind hgap rest
  | cons column before ih =>
    obtain ⟨pad, rest, rfl, -, -, -, hrest⟩ := columns_eq_cons_iff.mp h
    intro s
    rw [← List.append_assoc]
    exact watch_eq_none_of_behind _ (ih hrest)

/-- The columns of a text that ends in white space and of one behind it. -/
theorem columns_append_of_last (hlast : ∀ c ∈ text.getLast?, isBlank c = true) (rest : List Char) :
    columns (text ++ rest) = columns text ++ columns rest := by
  rcases List.eq_nil_or_concat text with rfl | ⟨front, c, rfl⟩
  · rfl
  · have hc : isBlank c = true := hlast c (by simp)
    have hfront := columns_append_blank hc front []
    rw [columns_nil, List.append_nil] at hfront
    rw [List.concat_eq_append, List.append_assoc, hfront]
    exact columns_append_blank hc front rest

end Columns

/-! ### Heads -/

variable {head : Head} {t B id : List Char} {others : List (List Char)}

/-- The label of the first part is no token behind the placement group. -/
theorem Head.WellFormed.exists_tokens (h : head.WellFormed) :
    ∃ tokens, head.tokens = "osd".toList :: head.osd :: "pg".toList :: head.pg ::
      head.kind.name.toList :: "size".toList :: tokens ∧ "osd".toList ∉ tokens := by
  refine ⟨_, rfl, ?_⟩
  have hdigits {value : List Char} (hvalue : IsRun isDigit value) : "osd".toList ≠ value := by
    rintro rfl
    revert hvalue
    decide
  simp only [List.mem_cons, not_or]
  exact ⟨hdigits h.size, by decide, hdigits h.client, by decide, hdigits h.tid, by decide,
    hdigits h.throttle, by decide, hdigits h.recv, by decide, hdigits h.dispatch, by decide,
    hdigits h.queue, by decide, hdigits h.osdLatency, by simp⟩

/-- The label and the number that the next line begins with are no tokens of a head in a row, except
for the first ones. -/
theorem Head.WellFormed.label_absurd (h : head.WellFormed) {front more left : List (List Char)}
    (hfront : front ≠ []) (hid : IsRun isDigit id)
    (htokens : head.tokens = front ++ "osd".toList :: more)
    (hmore : more ++ left = id :: others) : False := by
  obtain ⟨tokens, htail, hmem⟩ := h.exists_tokens
  rw [htail] at htokens
  match front with
  | [] => exact hfront rfl
  | [a] =>
    obtain ⟨-, hosd, -⟩ : "osd".toList = a ∧ head.osd = "osd".toList ∧ _ := by simpa using htokens
    have := hosd ▸ h.osd
    revert this
    decide
  | [a, b] => simp at htokens
  | [a, b, c] =>
    -- The placement group may be the label, but the kind behind it is no number.
    obtain ⟨-, -, -, -, hkind⟩ : "osd".toList = a ∧ head.osd = b ∧ "pg".toList = c ∧
        head.pg = "osd".toList ∧ head.kind.name.toList :: "size".toList :: tokens = more := by
      simpa using htokens
    rw [← hkind] at hmore
    rw [← (List.cons.inj hmore).1] at hid
    revert hid
    cases head.kind <;> decide
  | a :: b :: c :: d :: front =>
    obtain ⟨-, -, -, -, hlater⟩ : "osd".toList = a ∧ head.osd = b ∧ "pg".toList = c ∧
        head.pg = d ∧ head.kind.name.toList :: "size".toList :: tokens =
          front ++ "osd".toList :: more := by simpa using htokens
    have hosd : "osd".toList ∈ head.kind.name.toList :: "size".toList :: tokens := by
      rw [hlater]
      simp
    simp only [List.mem_cons] at hosd
    rcases hosd with hkind | hsize | htoken
    · revert hkind
      cases head.kind <;> decide
    · exact absurd hsize (by decide)
    · exact hmem htoken

/-- A head that is followed by the next line does not reach into that line. -/
theorem columns_of_headScanner (hB : columns B = "osd".toList :: id :: others)
    (hid : IsRun isDigit id) (h : headScanner (t ++ ' ' :: B) = some (head, rest)) :
    ∃ more, columns t = head.tokens ++ more ∧ columns rest = more ++ columns B := by
  obtain ⟨text, ⟨hformed, hspaced⟩, heq, -⟩ := headScanner_sound h
  have hcolumns : columns t ++ columns B = head.tokens ++ columns rest := by
    rw [← columns_append_blank (show isBlank ' ' = true by decide), heq, hspaced.columns_append]
  rcases List.append_eq_append_iff.mp hcolumns with ⟨more, hmore, hrest⟩ | ⟨more, hmore, hrest⟩
  · cases more with
    | nil => exact ⟨[], by simpa using hmore.symm, by simpa using hrest.symm⟩
    | cons first more =>
      -- The label of the next line would be a token of the head.
      rw [hB] at hrest
      obtain ⟨rfl, htail⟩ := List.cons.inj hrest
      have hfront : columns t ≠ [] := by
        obtain ⟨gap, text', -, -, -, rfl⟩ := spaced_cons_iff.mp hspaced
        cases t with
        | nil => simp at heq
        | cons c t =>
          obtain rfl : c = 'o' := (List.cons.inj heq).1
          rw [columns_cons_of_isSolid (by decide)]
          exact List.cons_ne_nil _ _
      exact (hformed.label_absurd hfront hid hmore htail.symm).elim
  · exact ⟨more, hmore, hrest⟩

/-- Nothing of note is seen behind the kind of the operation of a written line. -/
theorem Written.exists_split {c : Capture} {peers details : List (List Char × List Char)}
    {line : List Char} (h : c.Written peers details line) :
    ∃ front behind, line = "osd".toList ++ (front ++ behind) ∧ Boundary isSolid front ∧
      (columns front).length = 4 ∧ (∀ c ∈ front.getLast?, isBlank c = true) ∧
      watch .idle behind = some .idle := by
  obtain ⟨text, back, ⟨hformed, hspaced⟩, hback, rfl⟩ := h.spells
  obtain ⟨gap, rest, -, hgap, hrest, rfl⟩ := spaced_cons_iff.mp hspaced
  -- Four tokens stand between the first label and the size.
  have htokens : Spaced ([c.head.osd, "pg".toList, c.head.pg, c.head.kind.name.toList] ++
      ([("size".toList, c.head.size), ("client".toList, c.head.client),
        ("tid".toList, c.head.tid), ("throttle_lat".toList, c.head.throttle),
        ("recv_lat".toList, c.head.recv), ("dispatch_lat".toList, c.head.dispatch),
        ("queue_lat".toList, c.head.queue), ("osd_lat".toList, c.head.osdLatency)] :
        List (List Char × List Char)).flatMap fun pair => [pair.1, pair.2]) rest := hrest
  obtain ⟨four, pairs, rfl, hfour, hpairs⟩ := spaced_append_iff.mp htokens
  have hseen : watch .idle pairs = some .idle := by
    apply watch_spaced hpairs
    simp only [List.forall_mem_cons]
    exact ⟨hformed.size, hformed.client, hformed.tid, hformed.throttle, hformed.recv,
      hformed.dispatch, hformed.queue, hformed.osdLatency, by simp⟩
  refine ⟨gap ++ four, pairs ++ back, by simp, hgap.boundary_append fun _ => isSolid_of_isBlank,
    ?_, ?_, ?_⟩
  · have hcolumns := hfour.columns_append []
    rw [List.append_nil] at hcolumns
    rw [columns_append_of_isPad hgap.isPad, hcolumns]
    rfl
  · intro d hd
    rw [List.getLast?_append, Option.mem_def, Option.or_eq_some_iff] at hd
    rcases hd with hd | ⟨-, hd⟩
    · exact hfour.isBlank_of_mem_getLast? d hd
    · exact hgap.2 d (List.mem_of_getLast? hd)
  · rw [watch_append_of_eq hseen, hback.watch_eq h.peers h.details]

/-- The columns of what remains of a line, in front of where nothing of note is seen any more. -/
theorem columns_of_suffix {before front behind : List Char} (hsolid : Boundary isSolid front)
    (hfour : (columns front).length = 4) (hlast : ∀ c ∈ front.getLast?, isBlank c = true)
    (hne : before ≠ []) (h : "osd".toList ++ front = before ++ t) :
    (∃ column others, columns (t ++ behind) = column :: others ∧ column ≠ "osd".toList) ∨
      (columns t).length ≤ 4 ∧ columns (t ++ behind) = columns t ++ columns behind := by
  rcases List.append_eq_append_iff.mp h with ⟨skipped, rfl, rfl⟩ | ⟨label, hlabel, rfl⟩
  · refine Or.inr ⟨hfour ▸ length_columns_le_append skipped t, columns_append_of_last ?_ behind⟩
    intro c hc
    apply hlast c
    rw [List.getLast?_append, hc]
    rfl
  · by_cases hnil : label = []
    · subst hnil
      exact Or.inr ⟨hfour.le, columns_append_of_last hlast behind⟩
    · -- Less than the label is left of it.
      refine Or.inl ⟨label, columns (front ++ behind), ?_, ?_⟩
      · have hrun : IsRun isSolid label := by
          refine ⟨hnil, fun c hc => ?_⟩
          have hmem : c ∈ "osd".toList := by
            rw [hlabel]
            exact List.mem_append_right _ hc
          exact (show IsRun isSolid "osd".toList by decide).2 c hmem
        have hboundary : Boundary isSolid (front ++ behind) := by
          cases front with
          | nil => simp [columns_nil] at hfour
          | cons c front => exact boundary_cons.mpr (boundary_cons.mp hsolid)
        rw [List.append_assoc, columns_run_append hrun hboundary]
      · rintro rfl
        have hlength := congrArg List.length hlabel
        simp at hlength
        exact hne hlength

/-- Only at the beginning of a written line does a head begin in it, also if the line is cut off and
the next line follows. -/
theorem Written.headScanner_eq_none {c : Capture} {peers details : List (List Char × List Char)}
    {line before : List Char} (h : c.Written peers details line)
    (hB : columns B = "osd".toList :: id :: others) (hid : IsRun isDigit id) (hne : before ≠ [])
    (ht : before ++ t <+: line) : headScanner (t ++ ' ' :: B) = none := by
  rw [Option.eq_none_iff_forall_ne_some]
  rintro ⟨head, rest⟩ hfound
  obtain ⟨more, hcolumns, -⟩ := columns_of_headScanner hB hid hfound
  obtain ⟨front, behind, rfl, hsolid, hfour, hlast, hseen⟩ := h.exists_split
  have hlength : 21 ≤ (columns t).length := by
    have htokens : head.tokens.length = 21 := rfl
    rw [hcolumns, List.length_append]
    omega
  obtain ⟨behindSize, hsize⟩ : ∃ tokens, columns t =
      ["osd".toList, head.osd, "pg".toList, head.pg] ++
        head.kind.name.toList :: "size".toList :: tokens := ⟨_, hcolumns⟩
  rw [← List.append_assoc] at ht
  rcases prefix_append_cases ht with ⟨left, hleft⟩ | ⟨seen, hsplit, -, left, rfl⟩
  · -- In front of the size there are too few columns.
    have hle := (length_columns_le_append before t).trans (length_columns_le (before ++ t) left)
    rw [hleft, columns_run_append (by decide) hsolid, List.length_cons, hfour] at hle
    omega
  · have hletThrough (text : List Char) (hnone : ∀ s, watch s text = none) : text ≠ seen := by
      rintro rfl
      rw [watch_append, hnone] at hseen
      simp at hseen
    rcases List.append_eq_append_iff.mp hsplit with ⟨skipped, hskipped, rfl⟩ | ⟨skipped, rfl, rfl⟩
    · rcases columns_of_suffix hsolid hfour hlast hne hskipped with
        ⟨column, others', hfirst, hcolumn⟩ | ⟨hle, hboth⟩
      · rw [hfirst] at hsize
        exact hcolumn (List.cons.inj hsize).1
      · -- The kind and the size stand behind the four columns that may remain of the front.
        rw [hboth] at hsize
        refine hletThrough seen (fun s => ?_) rfl
        rcases List.append_eq_append_iff.mp hsize with ⟨more', -, hmore⟩ | ⟨more', hmore, hrest⟩
        · exact watch_eq_none_of_columns hmore s
        · have hnil : more' = [] := by
            rw [hmore] at hle
            simp only [List.length_append, List.length_cons, List.length_nil] at hle
            exact List.eq_nil_of_length_eq_zero (by omega)
          rw [hnil, List.nil_append] at hrest
          have hseenColumns : columns seen = [] ++ head.kind.name.toList :: _ := hrest.symm
          exact watch_eq_none_of_columns hseenColumns s
    · exact hletThrough _ (fun s => watch_eq_none_of_behind skipped
        (watch_eq_none_of_columns hsize)) rfl

end OsdLatency.Capture
