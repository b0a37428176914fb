import HindleyMilner.Proofs.Settings.Tokens
import HindleyMilner.Settings.Reader

/-!
# Settings are read as they are written

A document that lists settings, each at most once and in any order, is read as those settings
together with the defaults of the others. How the document is laid out does not matter: blanks may
stand between its parts, and a comma may follow the last entry or not. The written form of settings
is such a document, so it is read as the settings it was written from.

Reading goes entry by entry and notes each one in a draft, which refuses a setting that it has
already. So what is left to show of the whole run is what one entry does to the draft.
-/

namespace HindleyMilner.Settings

open Text (Stops)

variable {rest after before text : List Char} {entries : List Entry} {draft : Draft} {e : Entry}

/-! ### Entries -/

namespace Entry

def name : Entry → String
  | algorithm _ => "algorithm"
  | firstVar _ => "first_var"
  | logLevel _ => "log_level"

private theorem name_mem (e : Entry) : e.name ∈ ["algorithm", "first_var", "log_level"] := by
  cases e <;> simp [name]

def valueText : Entry → String
  | algorithm value => value.label
  | firstVar value => toString value.toNat
  | logLevel value => value.keyword

/-- An entry without the space around it and without its comma. -/
def field (e : Entry) : List Char := e.name.toList ++ ':' :: ' ' :: e.valueText.toList

private theorem toList_render (e : Entry) :
    e.render.toList = "    ".toList ++ (e.field ++ ",\n".toList) := by
  cases e with
  | algorithm value =>
    show ("    algorithm: " ++ value.label ++ ",\n").toList = _
    simp [field, name, valueText]
  | firstVar value =>
    show ("    first_var: " ++ toString value.toNat ++ ",\n").toList = _
    simp [field, name, valueText]
  | logLevel value =>
    show ("    log_level: " ++ value.keyword ++ ",\n").toList = _
    simp [field, name, valueText]

end Entry

private theorem isPlainName_name (e : Entry) : IsPlainName e.name.toList := by
  have hall : ∀ name ∈ ["algorithm", "first_var", "log_level"], IsPlainName name.toList := by decide
  exact hall e.name e.name_mem

private theorem readSetting_append (e : Entry) (hrest : Stops EndsValue rest) :
    readSetting e.name (e.valueText.toList ++ rest) = some (e, rest) := by
  have hword : Stops (fun c => Text.isNameRest c = false) rest := hrest.imp fun c hc => hc.1
  cases e with
  | algorithm value =>
    have hname : IsPlainName value.label.toList := by cases value <;> decide
    have hvalue : Algorithm.ofLabel? value.label = some value := by cases value <;> decide
    simp [readSetting, Entry.name, Entry.valueText, read?_append hname hword, hvalue]
  | firstVar value =>
    have hdigits : ∀ c ∈ (toString value.toNat).toList, Numeral.isNumeralChar c = true := by
      intro c hc
      simp [Numeral.isNumeralChar, Char.isAlphanum, Text.isDigit_of_mem_toString hc]
    have hnumber : Stops (fun c => Numeral.isNumeralChar c = false) rest :=
      hrest.imp fun c hc => hc.2
    simp only [readSetting, Entry.name, Entry.valueText,
      Text.takeWhile_append_of_stops hdigits hnumber,
      Text.dropWhile_append_of_stops hdigits hnumber,
      word?_toString]
    rfl
  | logLevel value =>
    have hname : IsPlainName value.keyword.toList := by cases value <;> decide
    have hvalue : Log.Level.ofKeyword? value.keyword = some value := by cases value <;> decide
    simp [readSetting, Entry.name, Entry.valueText, read?_append hname hword, hvalue]

private theorem readEntry_append (draft : Draft) (e : Entry) (hrest : Stops EndsValue rest) :
    readEntry [] draft e.name (e.valueText.toList ++ rest) = (draft.add? e).map (·, rest) := by
  have hsetting : isSetting e.name = true := by cases e <;> rfl
  rw [readEntry, if_pos hsetting, readSetting_append e hrest]
  cases hadd : draft.add? e <;> simp [hadd]

private theorem solid_valueText (e : Entry) (rest : List Char) :
    Stops Solid (e.valueText.toList ++ rest) := by
  have hhead : ∃ c, e.valueText.toList.head? = some c ∧ Solid c := by
    cases e with
    | algorithm value => cases value <;> exact ⟨_, rfl, by decide⟩
    | firstVar value =>
      obtain ⟨c, chars, hchars⟩ :=
        List.exists_cons_of_ne_nil (show (toString value.toNat).toList ≠ [] by simp)
      refine ⟨c, by rw [Entry.valueText, hchars, List.head?_cons],
        solid_of_isDigit (Text.isDigit_of_mem_toString (n := value.toNat) ?_)⟩
      rw [hchars]
      exact List.mem_cons_self
    | logLevel value => cases value <;> exact ⟨_, rfl, by decide⟩
  obtain ⟨c, hc, hsolid⟩ := hhead
  exact Text.stops_append hc hsolid

private theorem readSpaced?_field (e : Entry) (rest : List Char) :
    Word.readSpaced? (e.field ++ rest) =
      some (⟨e.name, false⟩, ':' :: ([' '] ++ (e.valueText.toList ++ rest))) := by
  have hcolon :
      Stops (fun c => Text.isNameRest c = false) (':' :: ([' '] ++ (e.valueText.toList ++ rest))) :=
    Text.stops_cons.mpr (by decide)
  have hsolid : Stops Solid (':' :: ([' '] ++ (e.valueText.toList ++ rest))) :=
    Text.stops_cons.mpr (by decide)
  have hfield : e.field ++ rest =
      e.name.toList ++ ':' :: ([' '] ++ (e.valueText.toList ++ rest)) := by
    simp [Entry.field]
  rw [hfield, Word.readSpaced?, read?_append (isPlainName_name e) hcolon]
  simp only [Option.bind_eq_bind, Option.bind_some, skipSpace_of_solid hsolid]
  rfl

/-- An entry is noted, and the mark behind it says whether there are more. -/
theorem readEntries_field (count : Nat) (draft : Draft) (e : Entry) (hafter : Blank after)
    {mark : Char} (hmark : mark = ',' ∨ mark = ')') (rest : List Char) :
    readEntries [] (count + 1) draft (e.field ++ (after ++ mark :: rest)) =
      (draft.add? e).bind fun draft =>
        if mark = ',' then (skipSpace rest).bind (readEntries [] count draft)
        else some (draft, rest) := by
  have hsolid : Stops Solid (mark :: rest) :=
    Text.stops_cons.mpr (by cases hmark <;> subst mark <;> decide)
  have hends : Stops EndsValue (after ++ mark :: rest) :=
    hafter.stops_append (fun _ => endsValue_of_isSeparator)
      (Text.stops_cons.mpr (by cases hmark <;> subst mark <;> decide))
  have hblank : Blank [' '] := by decide
  rw [readEntries, readSpaced?_field]
  · simp only [Option.bind_eq_bind, Option.bind_some,
      skipMark_append ':' hblank (solid_valueText e _), readEntry_append draft e hends]
    cases draft.add? e with
    | none => rfl
    | some draft =>
      simp only [Option.map_some, Option.bind_some, skipSpace_append hafter hsolid]
      cases hmark <;> subst mark <;> rfl
  · intro more
    cases e <;> simp [Entry.field, Entry.name]

/-! ### Drafts -/

namespace Draft

/-- The entry has been noted. -/
def Has (draft : Draft) : Entry → Prop
  | .algorithm value => draft.algorithm = some value
  | .firstVar value => draft.firstVar = some value
  | .logLevel value => draft.logLevel = some value

private theorem not_has_empty (e : Entry) : ¬ Has {} e := by
  cases e <;> simp [Has]

/-- Nothing has been noted for the setting that the entry sets. -/
def Lacks (draft : Draft) : Entry → Prop
  | .algorithm _ => draft.algorithm = none
  | .firstVar _ => draft.firstVar = none
  | .logLevel _ => draft.logLevel = none

private theorem lacks_of_not_has (hnone : ∀ e', e'.name = e.name → ¬ draft.Has e') :
    draft.Lacks e := by
  cases e with
  | algorithm value =>
    exact Option.eq_none_iff_forall_ne_some.mpr fun old => hnone (.algorithm old) rfl
  | firstVar value =>
    exact Option.eq_none_iff_forall_ne_some.mpr fun old => hnone (.firstVar old) rfl
  | logLevel value =>
    exact Option.eq_none_iff_forall_ne_some.mpr fun old => hnone (.logLevel old) rfl

theorem exists_add? (hlacks : draft.Lacks e) :
    ∃ draft', draft.add? e = some draft' ∧ ∀ e', draft'.Has e' ↔ e' = e ∨ draft.Has e' := by
  cases e with
  | algorithm value =>
    rw [Lacks] at hlacks
    refine ⟨{ draft with algorithm := some value }, by simp [add?, hlacks], fun e' => ?_⟩
    cases e' <;> simp [Has, hlacks, eq_comm]
  | firstVar value =>
    rw [Lacks] at hlacks
    refine ⟨{ draft with firstVar := some value }, by simp [add?, hlacks], fun e' => ?_⟩
    cases e' <;> simp [Has, hlacks, eq_comm]
  | logLevel value =>
    rw [Lacks] at hlacks
    refine ⟨{ draft with logLevel := some value }, by simp [add?, hlacks], fun e' => ?_⟩
    cases e' <;> simp [Has, hlacks, eq_comm]

theorem exists_foldlM_add? (hdistinct : (entries.map Entry.name).Nodup)
    (hnew : ∀ e', e'.name ∈ entries.map Entry.name → ¬ draft.Has e') :
    ∃ draft', entries.foldlM add? draft = some draft' ∧ ∀ e, draft'.Has e ↔
      e ∈ entries ∨ draft.Has e := by
  induction entries generalizing draft with
  | nil => exact ⟨draft, rfl, by simp⟩
  | cons e entries ih =>
    rw [List.map_cons, List.nodup_cons] at hdistinct
    have hlacks : draft.Lacks e := lacks_of_not_has fun e' heq => hnew e' (heq ▸ List.mem_cons_self)
    obtain ⟨draft₁, hadd, hhas₁⟩ := exists_add? hlacks
    have hnew₁ : ∀ e', e'.name ∈ entries.map Entry.name → ¬ draft₁.Has e' := by
      intro e' hmem hhas
      cases (hhas₁ e').mp hhas with
      | inl heq => exact hdistinct.1 (heq ▸ hmem)
      | inr hold => exact hnew e' (List.mem_cons_of_mem _ hmem) hold
    obtain ⟨draft₂, hfold, hhas₂⟩ := ih hdistinct.2 hnew₁
    refine ⟨draft₂, by simp [List.foldlM_cons, hadd, hfold], fun e' => ?_⟩
    rw [hhas₂, hhas₁, List.mem_cons]
    simp only [or_left_comm, or_assoc]

theorem Has.mem_settings (h : draft.Has e) : e ∈ draft.settings.entries := by
  cases e <;> simp_all [Has, settings, Settings.entries]

theorem Lacks.mem_settings (h : draft.Lacks e) (he : e ∈ defaults.entries) :
    e ∈ draft.settings.entries := by
  cases e <;> simp_all [Lacks, settings, Settings.entries]

end Draft

/-! ### Documents -/

/-- A list of entries up to the closing parenthesis, with blanks between its parts. One comma may
follow the last entry. -/
inductive Listing : List Entry → List Char → Prop
  | close : Listing [] [')']
  | last (e : Entry) {after : List Char} (hafter : Blank after) :
      Listing [e] (e.field ++ (after ++ [')']))
  | next (e : Entry) {after before text : List Char} {entries : List Entry} (hafter : Blank after)
      (hbefore : Blank before) (h : Listing entries text) :
    Listing (e :: entries) (e.field ++ (after ++ ',' :: (before ++ text)))

private theorem Listing.solid (h : Listing entries text) (rest : List Char) :
    Stops Solid (text ++ rest) := by
  have hfield : ∀ (e : Entry) (rest : List Char), Stops Solid (e.field ++ rest) := by
    intro e rest
    cases e with
    | algorithm value =>
      exact Text.stops_append (c := 'a') (by simp [Entry.field, Entry.name]) (by decide)
    | firstVar value =>
      exact Text.stops_append (c := 'f') (by simp [Entry.field, Entry.name]) (by decide)
    | logLevel value =>
      exact Text.stops_append (c := 'l') (by simp [Entry.field, Entry.name]) (by decide)
  cases h with
  | close => exact Text.stops_cons.mpr (by decide)
  | last e hafter =>
    rw [List.append_assoc]
    exact hfield e _
  | next e hafter hbefore h =>
    rw [List.append_assoc]
    exact hfield e _

private theorem Listing.length_lt (h : Listing entries text) : entries.length < text.length := by
  induction h with
  | close => simp
  | last e hafter =>
    simp only [Entry.field, List.length_cons, List.length_nil, List.length_append]
    omega
  | next e hafter hbefore h ih =>
    simp only [List.length_cons, List.length_append]
    omega

theorem Listing.readEntries (h : Listing entries text) {count : Nat}
    (hcount : entries.length < count) (draft : Draft) (rest : List Char) :
    Settings.readEntries [] count draft (text ++ rest) =
      (entries.foldlM Draft.add? draft).map (·, rest) := by
  induction h generalizing count draft with
  | close =>
    obtain ⟨count, rfl⟩ := Nat.exists_eq_add_one_of_ne_zero (Nat.ne_zero_of_lt hcount)
    rfl
  | last e hafter =>
    obtain ⟨count, rfl⟩ := Nat.exists_eq_add_one_of_ne_zero (Nat.ne_zero_of_lt hcount)
    rw [List.append_assoc, List.append_assoc, List.singleton_append,
      readEntries_field count draft e hafter (.inr rfl)]
    cases hadd : draft.add? e <;> simp [hadd]
  | next e hafter hbefore h ih =>
    obtain ⟨count, rfl⟩ := Nat.exists_eq_add_one_of_ne_zero (Nat.ne_zero_of_lt hcount)
    rw [List.append_assoc, List.append_assoc, List.cons_append, List.append_assoc,
      readEntries_field count draft e hafter (.inl rfl)]
    cases hadd : draft.add? e with
    | none => simp [hadd]
    | some draft =>
      simp only [Option.bind_some, if_true, skipSpace_append hbefore (h.solid rest),
        List.foldlM_cons, hadd, Option.bind_eq_bind]
      exact ih (Nat.lt_of_succ_lt_succ hcount) draft

/-- A document that lists the entries and nothing else. -/
def Lists (text : String) (entries : List Entry) : Prop :=
  ∃ before gap inner after, Blank before ∧ Blank gap ∧ Listing entries inner ∧ Blank after ∧
    text.toList = before ++ '(' :: (gap ++ (inner ++ after))

theorem readAttributes_open (rest : List Char) :
    readAttributes ('(' :: rest).length ('(' :: rest) = some ([], '(' :: rest) :=
  rfl

theorem skipGroupName_open (rest : List Char) :
    skipGroupName [] ('(' :: rest) = some ('(' :: rest) := by
  have hstart : Text.isNameStart '(' = false := by decide
  have hword : Word.read? ('(' :: rest) = none := by
    simp [Word.read?, Word.startsText, List.isPrefixOf, hstart]
  simp [skipGroupName, Word.readSpaced?, hword]

theorem Lists.ofDocument? {text : String} (h : Lists text entries) :
    ofDocument? text = (entries.foldlM Draft.add? {}).map Draft.settings := by
  obtain ⟨before, gap, inner, after, hbefore, hgap, hinner, hafter, htext⟩ := h
  have hopen : Stops Solid ('(' :: (gap ++ (inner ++ after))) := Text.stops_cons.mpr (by decide)
  have hcount : entries.length < (inner ++ after).length + 1 := by
    have := hinner.length_lt
    rw [List.length_append]
    omega
  have hend : skipSpace after = some [] := by simpa using skipSpace_append hafter Text.stops_nil
  simp only [Settings.ofDocument?, htext, skipSpace_append hbefore hopen, readAttributes_open,
    skipGroupName_open, Option.bind_eq_bind, Option.bind_some,
    skipMark_append '(' hgap (hinner.solid after), hinner.readEntries hcount]
  cases entries.foldlM Draft.add? {} with
  | none => rfl
  | some draft => simp [hend]

/-- The lines of the entries, after some blanks and up to the closing parenthesis. -/
theorem exists_listing (entries : List Entry) {lead : List Char} (hlead : Blank lead) :
    ∃ gap inner, Blank gap ∧ Listing entries inner ∧
      lead ++ ((entries.map Entry.render).flatMap String.toList ++ [')']) = gap ++ inner := by
  induction entries generalizing lead with
  | nil => exact ⟨lead, [')'], hlead, .close, rfl⟩
  | cons e entries ih =>
    have hnewline : Blank ['\n'] := by decide
    have hindent : Blank "    ".toList := by decide
    have hnone : Blank [] := by decide
    obtain ⟨gap, inner, hgap, hinner, htext⟩ := ih hnewline
    refine ⟨lead ++ "    ".toList, e.field ++ ([] ++ ',' :: (gap ++ inner)), ?_,
      .next e hnone hgap hinner, ?_⟩
    · rw [Blank, List.all_append, hlead, hindent, Bool.and_true]
    · rw [← htext]
      simp [Entry.toList_render]

/-- The written form lists the entries, each on a line of its own. -/
theorem lists_renderEntries (entries : List Entry) : Lists (renderEntries entries) entries := by
  have hnewline : Blank ['\n'] := by decide
  obtain ⟨gap, inner, hgap, hinner, htext⟩ := exists_listing entries hnewline
  refine ⟨[], gap, inner, [], by decide, hgap, hinner, by decide, ?_⟩
  rw [List.append_nil, ← htext]
  simp [renderEntries]

/-- Settings are determined by their entries. -/
theorem eq_of_mem_entries {s s' : Settings} (h : ∀ e ∈ s.entries, e ∈ s'.entries) : s' = s := by
  have halgorithm : s.algorithm = s'.algorithm := by
    simpa [Settings.entries] using h (.algorithm s.algorithm) (by simp [Settings.entries])
  have hfirst : s.firstVar = s'.firstVar := by
    simpa [Settings.entries] using h (.firstVar s.firstVar) (by simp [Settings.entries])
  have hlevel : s.logLevel = s'.logLevel := by
    simpa [Settings.entries] using h (.logLevel s.logLevel) (by simp [Settings.entries])
  cases s
  cases s'
  simp_all

private theorem Lists.exists_settings {text : String} (h : Lists text entries)
    (hdistinct : (entries.map Entry.name).Nodup) :
    ∃ settings, Settings.ofDocument? text = some settings ∧ (∀ e ∈ entries, e ∈ settings.entries) ∧
      ∀ e ∈ defaults.entries, e.name ∉ entries.map Entry.name → e ∈ settings.entries := by
  obtain ⟨draft, hfold, hhas⟩ := Draft.exists_foldlM_add? hdistinct fun e _ => Draft.not_has_empty e
  refine ⟨draft.settings, by rw [h.ofDocument?, hfold, Option.map_some], fun e he => ?_,
    fun e he hmissing => ?_⟩
  · exact ((hhas e).mpr (.inl he)).mem_settings
  · have hlacks : draft.Lacks e := by
      apply Draft.lacks_of_not_has
      intro e' hname hnoted
      cases (hhas e').mp hnoted with
      | inl hin => exact hmissing (hname ▸ List.mem_map_of_mem hin)
      | inr hold => exact Draft.not_has_empty e' hold
    exact hlacks.mem_settings he

theorem ofDocument?_render (settings : Settings) : ofDocument? settings.render = some settings := by
  have hdistinct : (settings.entries.map Entry.name).Nodup := by
    show ["algorithm", "first_var", "log_level"].Nodup
    decide
  obtain ⟨found, hread, hlisted, -⟩ :=
    (lists_renderEntries settings.entries).exists_settings hdistinct
  rw [show settings.render = renderEntries settings.entries from rfl, hread,
    eq_of_mem_entries hlisted]

/-- Settings are read as they are written. So is every document that lists entries with different
names, in any order: it gives the settings it lists, and the defaults of the others. The written
form of entries is such a document. -/
theorem ofDocument?_roundTrip :
    (∀ settings : Settings, ofDocument? settings.render = some settings) ∧
      (∀ entries : List Entry, Lists (renderEntries entries) entries) ∧
      ∀ (entries : List Entry) (text : String), (entries.map Entry.name).Nodup →
        Lists text entries →
        ∃ settings, ofDocument? text = some settings ∧ (∀ e ∈ entries, e ∈ settings.entries) ∧
          ∀ e ∈ defaults.entries, e.name ∉ entries.map Entry.name → e ∈ settings.entries :=
  ⟨ofDocument?_render, lists_renderEntries, fun _ _ hdistinct h => h.exists_settings hdistinct⟩

/-- Two entries on one line, the last one without a comma. -/
def oneLine : String := "(log_level: warn ,\tfirst_var: 18446744073709551615)"

theorem ofDocument?_roundTrip_oneLine :
    Lists oneLine [.logLevel .warn, .firstVar 18446744073709551615] ∧
      ofDocument? oneLine = some ⟨.w, 18446744073709551615, .warn⟩ := by
  have hnone : Blank [] := by decide
  have hspace : Blank [' '] := by decide
  have htab : Blank ['\t'] := by decide
  have hlists : Lists oneLine [.logLevel .warn, .firstVar 18446744073709551615] :=
    ⟨[], [], _, [], hnone, hnone, .next _ hspace htab (.last _ hnone), hnone, by decide +kernel⟩
  obtain ⟨settings, hread, hlisted, hdefault⟩ := ofDocument?_roundTrip.2.2 _ _ (by decide) hlists
  have hsettings : settings = ⟨.w, 18446744073709551615, .warn⟩ := by
    apply eq_of_mem_entries
    simp only [Settings.entries, List.forall_mem_cons]
    exact ⟨hdefault (.algorithm .w) (by decide) (by decide), hlisted _ (by decide),
      hlisted _ (by decide), by simp⟩
  exact ⟨hlists, hsettings ▸ hread⟩

end HindleyMilner.Settings
