import CLab.LexerCoverage
import CLab.MacroExpansion
import Mathlib.Data.List.Forall2

/-!
# Which macros are recorded

`definitionsOf` and `refusedOf` say, from the tokens alone, which macros a text
defines and which of its `macr` tokens define none.
`preprocessor_generate_macro_list` records the former and reports the latter,
except where the body of a definition is empty: its search for the closing line
begins behind the end of the name line (`LexerInput.macrosCollected_iff`).
A text without a `macr` goes through both passes unchanged
(`LexerInput.macroFree`).
-/

namespace Assembler

/-! ## What a text defines -/

/-- The macro that a `macr` defines, given the tokens behind it and the macros
defined so far: a name of its own, the end of the line, and somewhere behind
it, or at once, a line that is `endmacr`. -/
def definedMacro (source : CString) (defined : List Macro) (opener : Token) :
    List Token → Option Macro
  | name :: newline :: rest =>
      if name.type = .identifier ∧ newline.type = .eol ∧
          ∀ m ∈ defined, m.identifier.string ≠ name.string then
        (findEndmacr (newline :: rest)).map fun (last, closer) =>
          { identifier := name
            content := stringSubstring source (newline.index + 1) last.index
            startIndex := opener.index
            endIndex := closer.index }
      else none
  | _ => none

/-- The macros a text defines, behind those already defined. -/
def definitionsOf (source : CString) (defined : List Macro) : List Token → List Macro
  | [] => []
  | t :: rest =>
      if t.type = .macr then
        match definedMacro source defined t rest with
        | some m => m :: definitionsOf source (defined ++ [m]) rest
        | none => definitionsOf source defined rest
      else definitionsOf source defined rest

/-- The `macr` tokens that define no macro, each with the tokens behind it. -/
def refusedOf (source : CString) (defined : List Macro) : List Token → List (List Token)
  | [] => []
  | t :: rest =>
      if t.type = .macr then
        match definedMacro source defined t rest with
        | some m => refusedOf source (defined ++ [m]) rest
        | none => (t :: rest) :: refusedOf source defined rest
      else refusedOf source defined rest

/-- An error of the preprocessor about the `macr` that a list begins with: its
token is that one, the name or the token behind the name. -/
def ErrorAbout (tokens : List Token) (e : ErrorNode) : Prop :=
  ∃ error, e = .tokenError .preprocessor error ∧ error.token ∈ tokens.take 3

/-- The macros of a text have been recorded, and its other `macr` tokens been
reported. -/
structure MacrosCollected (source : CString) (tokens : List Token)
    (generated : Preprocessor) : Prop where
  macros : generated.macroList = definitionsOf source [] tokens
  errors : List.Forall₂ ErrorAbout (refusedOf source [] tokens)
    generated.errorHandler.errorList

/-- A definition would need a token that is not there: the list ends behind
the `macr`, or behind a new name. -/
def CutOff (defined : List Macro) (rest : List Token) : Prop :=
  rest = [] ∨ ∃ name, rest = [name] ∧ name.type = .identifier ∧
    ∀ m ∈ defined, m.identifier.string ≠ name.string

/-! ## The closing line -/

/-- What closes a definition stands behind an end of line, at the end of its own. -/
theorem findEndmacr_eq_some {tokens : List Token} {last closer : Token}
    (h : findEndmacr tokens = some (last, closer)) :
    ∃ before endmacr after, tokens = before ++ last :: endmacr :: closer :: after ∧
      last.type = .eol ∧ endmacr.type = .endmacr ∧
      (closer.type = .eol ∨ closer.type = .eoft) := by
  induction tokens with
  | nil => cases h
  | cons a tokens ih =>
      match tokens with
      | [] => cases h
      | [_] => cases h
      | b :: c :: rest =>
          rw [findEndmacr] at h
          split at h
          · rename_i htypes
            obtain ⟨rfl, rfl⟩ := Prod.mk.inj (Option.some.inj h)
            exact ⟨[], b, rest, rfl, htypes⟩
          · obtain ⟨before, endmacr, after, hsplit, htypes⟩ := ih h
            exact ⟨a :: before, endmacr, after, by rw [hsplit]; rfl, htypes⟩

/-- The closing line comes right behind the name line. -/
def ClosedAtOnce : List Token → Prop
  | endmacr :: closer :: _ =>
      endmacr.type = .endmacr ∧ (closer.type = .eol ∨ closer.type = .eoft)
  | _ => False

instance (rest : List Token) : Decidable (ClosedAtOnce rest) := by
  unfold ClosedAtOnce
  split <;> infer_instance

/-- A body that is closed at once is empty. -/
theorem findEndmacr_closedAtOnce {newline : Token} {rest : List Token}
    (hnewline : newline.type = .eol) (h : ClosedAtOnce rest) :
    ∃ endmacr closer after, rest = endmacr :: closer :: after ∧
      findEndmacr (newline :: rest) = some (newline, closer) := by
  match rest, h with
  | endmacr :: closer :: after, h =>
      refine ⟨endmacr, closer, after, rfl, ?_⟩
      rw [findEndmacr, if_pos ⟨hnewline, h⟩]

/-- Unless it comes at once, looking for the closing line may begin behind the
end of the name line. -/
theorem findEndmacr_later {newline : Token} {rest : List Token} (h : ¬ ClosedAtOnce rest) :
    findEndmacr (newline :: rest) = findEndmacr rest := by
  match rest, h with
  | [], _ => rfl
  | [_], _ => rfl
  | endmacr :: closer :: after, h =>
      rw [findEndmacr, if_neg fun htypes => h htypes.2]

/-! ## Reading one definition -/

section Create

variable {preprocessor : Preprocessor} {source : CString} {opener : Token} {rest : List Token}

/-- What the code does at a `macr`, next to what the text defines there. -/
inductive CreateOutcome (preprocessor : Preprocessor) (source : CString) (opener : Token)
    (rest : List Token) : Except Fault Preprocessor → Prop
  | cutOff (hcut : CutOff preprocessor.macroList rest) :
      CreateOutcome preprocessor source opener rest (.error .nullDereference)
  | refused {token : Token} {message : String}
      (hnone : definedMacro source preprocessor.macroList opener rest = none)
      (hcut : ¬ CutOff preprocessor.macroList rest)
      (htoken : token ∈ (opener :: rest).take 3) :
      CreateOutcome preprocessor source opener rest
        (.ok ({ preprocessor with tokens := opener :: rest }.addError token message))
  | recorded {m : Macro} (hsome : definedMacro source preprocessor.macroList opener rest = some m)
      (hlater : ∃ name newline behind last closer, rest = name :: newline :: behind ∧
        findEndmacr behind = some (last, closer) ∧
        m.content = stringSubstring source (newline.index + 1) last.index) :
      CreateOutcome preprocessor source opener rest
        (.ok (preprocessorAppendMacro { preprocessor with tokens := opener :: rest } m))
  | missed {name newline endmacr closer : Token} {after : List Token} {m : Macro}
      {result : Preprocessor} (hrest : rest = name :: newline :: endmacr :: closer :: after)
      (hsome : definedMacro source preprocessor.macroList opener rest = some m)
      (hstart : m.startIndex = opener.index) (hend : m.endIndex = closer.index)
      (hcontent : m.content = stringSubstring source (newline.index + 1) newline.index)
      (hresult : (∃ token message,
          result = { preprocessor with tokens := opener :: rest }.addError token message) ∨
        ∃ other, other.startIndex = opener.index ∧ ∃ later ∈ after,
          other.endIndex = later.index ∧
          result = preprocessorAppendMacro { preprocessor with tokens := opener :: rest } other) :
      CreateOutcome preprocessor source opener rest (.ok result)

/-- A new name with its line opens a definition, if one is closed behind it. -/
theorem definedMacro_named {defined : List Macro} {name newline : Token} {behind : List Token}
    (hname : name.type = .identifier) (hnewline : newline.type = .eol)
    (hnew : ∀ m ∈ defined, m.identifier.string ≠ name.string) :
    definedMacro source defined opener (name :: newline :: behind) =
      (findEndmacr (newline :: behind)).map fun (last, closer) =>
        { identifier := name
          content := stringSubstring source (newline.index + 1) last.index
          startIndex := opener.index
          endIndex := closer.index } := by
  rw [definedMacro, if_pos ⟨hname, hnewline, hnew⟩]

/-- Behind a token that is no new name the text defines nothing, and nothing is
missing there. -/
theorem unnamed_refused {defined : List Macro} {name : Token}
    (h : name.type = .identifier → ¬ ∀ m ∈ defined, m.identifier.string ≠ name.string) :
    definedMacro source defined opener (name :: rest) = none ∧ ¬ CutOff defined (name :: rest) := by
  constructor
  · cases rest with
    | nil => rfl
    | cons newline behind => rw [definedMacro, if_neg fun hnamed => h hnamed.1 hnamed.2.2]
  · intro hcases
    rcases hcases with hnil | ⟨name', hname', htype, hnew⟩
    · cases hnil
    · obtain rfl := (List.cons.inj hname').1
      exact h htype hnew

/-- Where the closing line comes at once, the code finds a later one. -/
theorem later_closer_mem {endmacr closer last closer' : Token} {after : List Token}
    (hendmacr : endmacr.type = .endmacr)
    (hlater : findEndmacr (endmacr :: closer :: after) = some (last, closer')) :
    closer' ∈ after := by
  obtain ⟨before, e, behind, hsplit, hlast, -, -⟩ := findEndmacr_eq_some hlater
  cases before with
  | nil =>
      obtain ⟨rfl, -⟩ := List.cons.inj hsplit
      rw [hlast] at hendmacr
      cases hendmacr
  | cons b before =>
      have htail := (List.cons.inj hsplit).2
      cases before with
      | nil =>
          obtain rfl := (List.cons.inj htail).2
          simp
      | cons b' before =>
          have hafter := (List.cons.inj htail).2
          rw [hafter]
          simp

section Named

variable {name newline : Token} {behind : List Token} (hopener : opener.type = .macr)
  (hname : name.type = .identifier)
  (hnew : ∀ m ∈ preprocessor.macroList, m.identifier.string ≠ name.string)

include hnew

/-- A new name is not among the names of the macros. -/
theorem name_not_any : (preprocessor.macroList.any fun existing =>
    stringEquals name.string existing.identifier.string) = false := by
  refine List.any_eq_false.mpr fun m hm heq => ?_
  exact hnew m hm (stringEquals_iff.mp heq).symm

include hopener hname

/-- Behind a new name and the end of its line the code looks for the closing
line. -/
theorem preprocessorCreateMacro_named (hnewline : newline.type = .eol) :
    preprocessorCreateMacro
        { preprocessor with tokens := opener :: name :: newline :: behind } source =
      .ok ((findEndmacr behind).elim
        ({ preprocessor with tokens := opener :: name :: newline :: behind }.addError
          opener "Invalid or missing ENDMACR")
        fun found => preprocessorAppendMacro
          { preprocessor with tokens := opener :: name :: newline :: behind }
          { identifier := name
            content := stringSubstring source (newline.index + 1) found.1.index
            startIndex := opener.index
            endIndex := found.2.index }) := by
  have hany := name_not_any hnew
  cases hfind : findEndmacr behind with
  | none => simp [preprocessorCreateMacro, hopener, hname, hany, hnewline, hfind]
  | some found => simp [preprocessorCreateMacro, hopener, hname, hany, hnewline, hfind]

/-- Behind a new name and the end of its line. -/
theorem named_outcome (hnewline : newline.type = .eol) :
    CreateOutcome preprocessor source opener (name :: newline :: behind)
      (preprocessorCreateMacro
        { preprocessor with tokens := opener :: name :: newline :: behind } source) := by
  have hdefined : definedMacro source _ opener (name :: newline :: behind) = _ :=
    definedMacro_named hname hnewline hnew
  have hcut : ¬ CutOff preprocessor.macroList (name :: newline :: behind) := by
    rintro (h | ⟨_, h, -⟩) <;> cases h
  rw [preprocessorCreateMacro_named hopener hname hnew hnewline]
  by_cases honce : ClosedAtOnce behind
  · -- the text closes the definition where the code does not look
    obtain ⟨endmacr, closer, after, rfl, hfind⟩ := findEndmacr_closedAtOnce hnewline honce
    rw [hfind] at hdefined
    cases hlater : findEndmacr (endmacr :: closer :: after) with
    | none => exact .missed rfl hdefined rfl rfl rfl (Or.inl ⟨_, _, rfl⟩)
    | some found =>
        exact .missed rfl hdefined rfl rfl rfl
          (Or.inr ⟨_, rfl, found.2, later_closer_mem honce.1 hlater, rfl, rfl⟩)
  · rw [findEndmacr_later honce] at hdefined
    cases hfind : findEndmacr behind with
    | none =>
        rw [hfind] at hdefined
        exact .refused hdefined hcut (by simp)
    | some found =>
        rw [hfind] at hdefined
        exact .recorded hdefined ⟨name, newline, behind, found.1, found.2, rfl, hfind, rfl⟩

end Named

/-- **One definition.**  Whatever stands behind a `macr`, the code does one of
four things. -/
theorem preprocessorCreateMacro_outcome (hopener : opener.type = .macr) :
    CreateOutcome preprocessor source opener rest
      (preprocessorCreateMacro { preprocessor with tokens := opener :: rest } source) := by
  cases rest with
  | nil =>
      have hfault : preprocessorCreateMacro { preprocessor with tokens := [opener] } source =
          .error .nullDereference := by simp [preprocessorCreateMacro, hopener]
      rw [hfault]
      exact .cutOff (Or.inl rfl)
  | cons name rest =>
      by_cases hname : name.type = .identifier
      case neg =>
        have hcode : preprocessorCreateMacro { preprocessor with tokens := opener :: name :: rest }
            source = .ok ({ preprocessor with tokens := opener :: name :: rest }.addError name
              "Expected identifier after MACR") := by
          simp [preprocessorCreateMacro, hopener, hname]
        have hrefused := @unnamed_refused source opener rest preprocessor.macroList name
          fun h => absurd h hname
        rw [hcode]
        exact .refused hrefused.1 hrefused.2 (by simp)
      by_cases hnew : ∀ m ∈ preprocessor.macroList, m.identifier.string ≠ name.string
      case neg =>
        have hany : (preprocessor.macroList.any fun existing =>
            stringEquals name.string existing.identifier.string) = true := by
          push Not at hnew
          obtain ⟨m, hm, heq⟩ := hnew
          exact List.any_eq_true.mpr ⟨m, hm, stringEquals_iff.mpr heq.symm⟩
        have hcode : preprocessorCreateMacro { preprocessor with tokens := opener :: name :: rest }
            source = .ok ({ preprocessor with tokens := opener :: name :: rest }.addError name
              "Duplicate macro identifier") := by
          simp [preprocessorCreateMacro, hopener, hname, hany]
        have hrefused := @unnamed_refused source opener rest preprocessor.macroList name
          fun _ => hnew
        rw [hcode]
        exact .refused hrefused.1 hrefused.2 (by simp)
      have hany := name_not_any hnew
      cases rest with
      | nil =>
          have hfault : preprocessorCreateMacro { preprocessor with tokens := [opener, name] }
              source = .error .nullDereference := by
            simp [preprocessorCreateMacro, hopener, hname, hany]
          rw [hfault]
          exact .cutOff (Or.inr ⟨name, rfl, hname, hnew⟩)
      | cons newline behind =>
          by_cases hnewline : newline.type = .eol
          case pos => exact named_outcome hopener hname hnew hnewline
          have hcode : preprocessorCreateMacro
              { preprocessor with tokens := opener :: name :: newline :: behind } source =
              .ok ({ preprocessor with tokens := opener :: name :: newline :: behind }.addError
                newline "Expected newline after macro identifier") := by
            simp [preprocessorCreateMacro, hopener, hname, hany, hnewline]
          rw [hcode]
          refine .refused ?_ ?_ (by simp)
          · rw [definedMacro, if_neg fun h => hnewline h.2.1]
          · rintro (h | ⟨_, h, -⟩) <;> cases h

end Create

/-! ## The whole text -/

/-- A `macr` that defines something adds it. -/
theorem definitionsOf_some {source : CString} {defined : List Macro} {t : Token}
    {rest : List Token} {m : Macro} (ht : t.type = .macr)
    (h : definedMacro source defined t rest = some m) :
    definitionsOf source defined (t :: rest) = m :: definitionsOf source (defined ++ [m]) rest ∧
      refusedOf source defined (t :: rest) = refusedOf source (defined ++ [m]) rest := by
  simp [definitionsOf, refusedOf, ht, h]

theorem definitionsOf_none {source : CString} {defined : List Macro} {t : Token}
    {rest : List Token} (ht : t.type = .macr) (h : definedMacro source defined t rest = none) :
    definitionsOf source defined (t :: rest) = definitionsOf source defined rest ∧
      refusedOf source defined (t :: rest) = (t :: rest) :: refusedOf source defined rest := by
  simp [definitionsOf, refusedOf, ht, h]

theorem definitionsOf_other {source : CString} {defined : List Macro} {t : Token}
    {rest : List Token} (ht : t.type ≠ .macr) :
    definitionsOf source defined (t :: rest) = definitionsOf source defined rest ∧
      refusedOf source defined (t :: rest) = refusedOf source defined rest := by
  simp [definitionsOf, refusedOf, ht]

/-- Every `macr` defines a macro or is refused. -/
theorem nothing_collected_iff (source : CString) (defined : List Macro) (tokens : List Token) :
    (definitionsOf source defined tokens = [] ∧ refusedOf source defined tokens = []) ↔
      ∀ t ∈ tokens, t.type ≠ .macr := by
  induction tokens generalizing defined with
  | nil => simp [definitionsOf, refusedOf]
  | cons t rest ih =>
      by_cases ht : t.type = .macr
      · have hleft : ¬ (definitionsOf source defined (t :: rest) = [] ∧
            refusedOf source defined (t :: rest) = []) := by
          intro hfacts
          obtain ⟨hdefs, hrefused⟩ := hfacts
          cases h : definedMacro source defined t rest with
          | none =>
              rw [(definitionsOf_none ht h).2] at hrefused
              cases hrefused
          | some m =>
              rw [(definitionsOf_some ht h).1] at hdefs
              cases hdefs
        exact ⟨fun h => absurd h hleft, fun h => absurd ht (h t List.mem_cons_self)⟩
      · rw [(definitionsOf_other ht).1, (definitionsOf_other ht).2, ih]
        exact ⟨fun h => List.forall_mem_cons.mpr ⟨ht, h⟩, fun h => (List.forall_mem_cons.mp h).2⟩

/-- Where the collection goes right: no definition has an empty body, nothing
is defined behind the first end of the file, and the tokens do not break off
inside the first line of a definition. -/
structure CollectedRight (source : CString) (defined : List Macro) (tokens : List Token) :
    Prop where
  body : ∀ m ∈ definitionsOf source defined tokens, m.content.data ≠ []
  behindEof : ∀ t ∈ tokens.dropWhile (fun t => t.type != .eoft), t.type ≠ .macr
  complete : ∀ before opener rest, tokens = before ++ opener :: rest → opener.type = .macr →
    ¬ CutOff (defined ++ definitionsOf source defined tokens) rest

/-- What is still to be shown of a preprocessor in front of some tokens. -/
def CollectsFrom (preprocessor : Preprocessor) (source : CString) (tokens : List Token) : Prop :=
  ∃ generated, generateMacroListFrom preprocessor source tokens = .ok generated ∧
    generated.macroList =
      preprocessor.macroList ++ definitionsOf source preprocessor.macroList tokens ∧
    ∃ errors, generated.errorHandler.errorList = preprocessor.errorHandler.errorList ++ errors ∧
      List.Forall₂ ErrorAbout (refusedOf source preprocessor.macroList tokens) errors

/-- At a `macr` the code tries to create a macro. -/
theorem generateMacroListFrom_macr {preprocessor : Preprocessor} {source : CString} {t : Token}
    {rest : List Token} (ht : t.type = .macr) :
    generateMacroListFrom preprocessor source (t :: rest) =
      (preprocessorCreateMacro { preprocessor with tokens := t :: rest } source).bind
        fun preprocessor' => generateMacroListFrom preprocessor' source rest := by
  have heof : t.type ≠ .eoft := by rw [ht]; decide
  rw [generateMacroListFrom, if_neg heof, if_pos ht]
  rfl

/-- A definition starts at its opener. -/
theorem definedMacro_start {source : CString} {defined : List Macro} {opener : Token}
    {rest : List Token} {m : Macro} (h : definedMacro source defined opener rest = some m) :
    m.startIndex = opener.index := by
  unfold definedMacro at h
  split at h
  · split at h
    · obtain ⟨found, -, rfl⟩ := Option.map_eq_some_iff.mp h
      rfl
    · cases h
  · cases h

/-- The macros the code records behind a point belong to `macr` tokens behind
that point. -/
theorem generateMacroListFrom_extends {preprocessor generated : Preprocessor} {source : CString}
    {tokens : List Token}
    (h : generateMacroListFrom preprocessor source tokens = .ok generated) :
    ∃ added, generated.macroList = preprocessor.macroList ++ added ∧
      ∀ m ∈ added, ∃ t ∈ tokens, m.startIndex = t.index := by
  induction tokens generalizing preprocessor with
  | nil =>
      obtain rfl := Except.ok.inj h
      exact ⟨[], (List.append_nil _).symm, nofun⟩
  | cons t rest ih =>
      have hlater : ∀ preprocessor' added, generateMacroListFrom preprocessor' source rest =
          .ok generated → preprocessor'.macroList = preprocessor.macroList ++ added →
          (∀ m ∈ added, m.startIndex = t.index) →
          ∃ added, generated.macroList = preprocessor.macroList ++ added ∧
            ∀ m ∈ added, ∃ t' ∈ t :: rest, m.startIndex = t'.index := by
        intro preprocessor' added hrest hlist hstart
        obtain ⟨more, hmore, hindex⟩ := ih hrest
        refine ⟨added ++ more, by rw [hmore, hlist, List.append_assoc], fun m hm => ?_⟩
        rcases List.mem_append.mp hm with hm | hm
        · exact ⟨t, List.mem_cons_self, hstart m hm⟩
        · obtain ⟨u, hu, heq⟩ := hindex m hm
          exact ⟨u, List.mem_cons_of_mem _ hu, heq⟩
      by_cases ht : t.type = .macr
      · rw [generateMacroListFrom_macr ht] at h
        obtain ⟨created, hcreate, hrest⟩ := exists_of_bind_eq_ok h
        have houtcome : CreateOutcome preprocessor source t rest _ :=
          preprocessorCreateMacro_outcome ht
        rw [hcreate] at houtcome
        cases houtcome with
        | refused => exact hlater _ [] hrest (List.append_nil _).symm nofun
        | @recorded m hsome =>
            refine hlater _ [m] hrest rfl fun m' hm' => ?_
            obtain rfl := List.mem_singleton.mp hm'
            exact definedMacro_start hsome
        | missed _ _ _ _ _ hresult =>
            rcases hresult with ⟨token, message, rfl⟩ | ⟨other, hstart, -, -, -, rfl⟩
            · exact hlater _ [] hrest (List.append_nil _).symm nofun
            · refine hlater _ [other] hrest rfl fun m' hm' => ?_
              obtain rfl := List.mem_singleton.mp hm'
              exact hstart
      · rw [generateMacroListFrom] at h
        split at h
        · obtain rfl := Except.ok.inj h
          exact ⟨[], (List.append_nil _).symm, nofun⟩
        · exact hlater preprocessor [] h (List.append_nil _).symm nofun

/-- Errors are only added. -/
theorem generateMacroListFrom_errors {preprocessor generated : Preprocessor} {source : CString}
    {tokens : List Token}
    (h : generateMacroListFrom preprocessor source tokens = .ok generated) :
    ∃ more, generated.errorHandler.errorList = preprocessor.errorHandler.errorList ++ more := by
  induction tokens generalizing preprocessor with
  | nil =>
      obtain rfl := Except.ok.inj h
      exact ⟨[], (List.append_nil _).symm⟩
  | cons t rest ih =>
      by_cases ht : t.type = .macr
      · rw [generateMacroListFrom_macr ht] at h
        obtain ⟨created, hcreate, hrest⟩ := exists_of_bind_eq_ok h
        obtain ⟨more, hmore⟩ := ih hrest
        rcases preprocessorCreateMacro_cases hcreate with ⟨token, message, rfl⟩ | ⟨m, rfl⟩
        · exact ⟨_ :: more, by rw [hmore]; exact List.append_assoc _ [_] more⟩
        · exact ⟨more, hmore⟩
      · rw [generateMacroListFrom] at h
        split at h
        · obtain rfl := Except.ok.inj h
          exact ⟨[], (List.append_nil _).symm⟩
        · exact ih h

/-- A text that ends inside the first line of a definition defines nothing
there. -/
theorem definitionsOf_cutOff {source : CString} {defined : List Macro} {t : Token}
    {rest : List Token} (ht : t.type = .macr) (hcut : CutOff defined rest) :
    definitionsOf source defined (t :: rest) = [] := by
  rcases hcut with rfl | ⟨name, rfl, hname, -⟩
  · exact (definitionsOf_none ht rfl).1
  · have hother : name.type ≠ .macr := by rw [hname]; decide
    exact (definitionsOf_none ht rfl).1.trans (definitionsOf_other hother).1

/-! ### What one token adds to the condition -/

section Condition

variable {source : CString} {defined : List Macro} {t : Token} {rest : List Token}

/-- With fewer names known the list is still cut off. -/
theorem CutOff.of_append {more : List Macro} (h : CutOff (defined ++ more) rest) :
    CutOff defined rest :=
  h.imp_right fun ⟨name, hrest, hname, hnew⟩ =>
    ⟨name, hrest, hname, fun m hm => hnew m (List.mem_append_left _ hm)⟩

/-- The list is whole if it is behind its first token and there. -/
theorem complete_cons_iff (known : List Macro) :
    (∀ before opener behind, t :: rest = before ++ opener :: behind → opener.type = .macr →
      ¬ CutOff known behind) ↔
    (t.type = .macr → ¬ CutOff known rest) ∧
      ∀ before opener behind, rest = before ++ opener :: behind → opener.type = .macr →
        ¬ CutOff known behind := by
  constructor
  · intro h
    exact ⟨h [] t rest rfl, fun before opener behind hsplit =>
      h (t :: before) opener behind (by rw [hsplit]; rfl)⟩
  · intro hfacts before opener behind hsplit
    obtain ⟨hfirst, hrest⟩ := hfacts
    cases before with
    | nil =>
        obtain ⟨rfl, rfl⟩ := List.cons.inj hsplit
        exact hfirst
    | cons b before => exact hrest before opener behind (List.cons.inj hsplit).2

/-- A token in front of the end of the file does not move it. -/
theorem dropWhile_notEof (ht : t.type ≠ .eoft) :
    (t :: rest).dropWhile (fun t => t.type != .eoft) =
      rest.dropWhile (fun t => t.type != .eoft) := by
  simp [ht]

/-- Behind the end of the file nothing may be defined. -/
theorem collectedRight_eof (ht : t.type = .eoft) :
    CollectedRight source defined (t :: rest) ↔ ∀ u ∈ rest, u.type ≠ .macr := by
  have hmacr : t.type ≠ .macr := by rw [ht]; decide
  have hdrop : (t :: rest).dropWhile (fun t => t.type != .eoft) = t :: rest := by simp [ht]
  constructor
  · intro h u hu
    exact h.behindEof u (by rw [hdrop]; exact List.mem_cons_of_mem _ hu)
  · intro h
    have hnone := ((nothing_collected_iff source defined rest).mpr h).1
    refine ⟨?_, ?_, ?_⟩
    · rw [(definitionsOf_other hmacr).1, hnone]
      exact nofun
    · rw [hdrop]
      intro u hu
      rcases List.mem_cons.mp hu with rfl | hu
      · exact hmacr
      · exact h u hu
    · intro before opener behind hsplit hopener
      have hmem : opener ∈ t :: rest := by rw [hsplit]; simp
      rcases List.mem_cons.mp hmem with rfl | hmem
      · exact absurd hopener hmacr
      · exact absurd hopener (h opener hmem)

/-- A token that is no `macr` does not matter. -/
theorem collectedRight_other (hmacr : t.type ≠ .macr) (heof : t.type ≠ .eoft) :
    CollectedRight source defined (t :: rest) ↔ CollectedRight source defined rest := by
  have hdefs : definitionsOf source defined (t :: rest) = definitionsOf source defined rest :=
    (definitionsOf_other hmacr).1
  constructor
  · intro hfacts
    obtain ⟨hbody, hbehind, hcomplete⟩ := hfacts
    rw [hdefs] at hbody hcomplete
    rw [dropWhile_notEof heof] at hbehind
    exact ⟨hbody, hbehind, ((complete_cons_iff _).mp hcomplete).2⟩
  · intro hfacts
    obtain ⟨hbody, hbehind, hcomplete⟩ := hfacts
    refine ⟨by rw [hdefs]; exact hbody, by rw [dropWhile_notEof heof]; exact hbehind, ?_⟩
    rw [hdefs]
    exact (complete_cons_iff _).mpr ⟨fun h => absurd h hmacr, hcomplete⟩

theorem collectedRight_refused (ht : t.type = .macr)
    (hnone : definedMacro source defined t rest = none) (hcut : ¬ CutOff defined rest) :
    CollectedRight source defined (t :: rest) ↔ CollectedRight source defined rest := by
  have heof : t.type ≠ .eoft := by rw [ht]; decide
  have hdefs := (definitionsOf_none ht hnone).1
  constructor
  · intro hfacts
    obtain ⟨hbody, hbehind, hcomplete⟩ := hfacts
    rw [hdefs] at hbody hcomplete
    rw [dropWhile_notEof heof] at hbehind
    exact ⟨hbody, hbehind, ((complete_cons_iff _).mp hcomplete).2⟩
  · intro hfacts
    obtain ⟨hbody, hbehind, hcomplete⟩ := hfacts
    refine ⟨by rw [hdefs]; exact hbody, by rw [dropWhile_notEof heof]; exact hbehind, ?_⟩
    rw [hdefs]
    exact (complete_cons_iff _).mpr ⟨fun _ h => hcut h.of_append, hcomplete⟩

theorem collectedRight_recorded {m : Macro} (ht : t.type = .macr)
    (hsome : definedMacro source defined t rest = some m) (hcontent : m.content.data ≠ []) :
    CollectedRight source defined (t :: rest) ↔
      CollectedRight source (defined ++ [m]) rest := by
  have heof : t.type ≠ .eoft := by rw [ht]; decide
  have hdefs := (definitionsOf_some ht hsome).1
  have hknown : defined ++ definitionsOf source defined (t :: rest) =
      defined ++ [m] ++ definitionsOf source (defined ++ [m]) rest := by
    rw [hdefs, List.append_assoc]
    rfl
  have hcut : ∀ known, ¬ CutOff known rest := by
    rintro known (rfl | ⟨name, rfl, -, -⟩) <;> cases hsome
  constructor
  · intro hfacts
    obtain ⟨hbody, hbehind, hcomplete⟩ := hfacts
    rw [hdefs] at hbody
    rw [hknown] at hcomplete
    rw [dropWhile_notEof heof] at hbehind
    exact ⟨(List.forall_mem_cons.mp hbody).2, hbehind, ((complete_cons_iff _).mp hcomplete).2⟩
  · intro hfacts
    obtain ⟨hbody, hbehind, hcomplete⟩ := hfacts
    refine ⟨?_, by rw [dropWhile_notEof heof]; exact hbehind, ?_⟩
    · rw [hdefs]
      exact List.forall_mem_cons.mpr ⟨hcontent, hbody⟩
    · rw [hknown]
      exact (complete_cons_iff _).mpr ⟨fun _ => hcut _, hcomplete⟩

end Condition

/-- A body that is found behind the name line has characters. -/
theorem recorded_content {source : CString} {t : Token} {rest : List Token} {m : Macro}
    (hordered : (t :: rest).Pairwise fun t u => t.index < u.index)
    (hinside : ∀ u ∈ t :: rest, u.type = .eol → u.index < source.data.length)
    (hlater : ∃ name newline behind last closer, rest = name :: newline :: behind ∧
      findEndmacr behind = some (last, closer) ∧
      m.content = stringSubstring source (newline.index + 1) last.index) :
    m.content.data ≠ [] := by
  obtain ⟨name, newline, behind, last, closer, rfl, hfind, hcontent⟩ := hlater
  obtain ⟨before, endmacr, after, rfl, hlast, -, -⟩ := findEndmacr_eq_some hfind
  have hlt : newline.index < last.index :=
    (List.pairwise_cons.mp (List.pairwise_cons.mp (List.pairwise_cons.mp hordered).2).2).1 last
      (by simp)
  have hin := hinside last (by simp) hlast
  rw [hcontent]
  apply List.ne_nil_of_length_pos
  show 0 < ((source.data.drop (newline.index + 1)).take
    (last.index + 1 - (newline.index + 1))).length
  rw [List.length_take, List.length_drop]
  omega

section Collects

variable {preprocessor : Preprocessor} {source : CString} {t : Token} {rest : List Token}

/-- At the end of the file the code stops, so nothing may come behind. -/
theorem collectsFrom_eof (ht : t.type = .eoft) :
    CollectsFrom preprocessor source (t :: rest) ↔ ∀ u ∈ rest, u.type ≠ .macr := by
  have hcode : generateMacroListFrom preprocessor source (t :: rest) =
      .ok { preprocessor with tokens := t :: rest } := by
    rw [generateMacroListFrom, if_pos ht]
  have hmacr : t.type ≠ .macr := by rw [ht]; decide
  rw [← nothing_collected_iff source preprocessor.macroList]
  unfold CollectsFrom
  rw [hcode, (definitionsOf_other hmacr).1, (definitionsOf_other hmacr).2]
  constructor
  · intro hfacts
    obtain ⟨generated, hgen, hmacros, errors, herrors, hrefused⟩ := hfacts
    obtain rfl := Except.ok.inj hgen
    obtain rfl : errors = [] := List.append_right_eq_self.mp herrors.symm
    exact ⟨List.append_right_eq_self.mp hmacros.symm, List.forall₂_nil_right_iff.mp hrefused⟩
  · intro hfacts
    obtain ⟨hdefs, hrefused⟩ := hfacts
    rw [hdefs, hrefused]
    exact ⟨_, rfl, (List.append_nil _).symm, [], (List.append_nil _).symm, .nil⟩

/-- It steps over any other token. -/
theorem collectsFrom_other (hmacr : t.type ≠ .macr) (heof : t.type ≠ .eoft) :
    CollectsFrom preprocessor source (t :: rest) ↔ CollectsFrom preprocessor source rest := by
  have hcode : generateMacroListFrom preprocessor source (t :: rest) =
      generateMacroListFrom preprocessor source rest := by
    rw [generateMacroListFrom, if_neg heof, if_neg hmacr]
  unfold CollectsFrom
  rw [hcode, (definitionsOf_other hmacr).1, (definitionsOf_other hmacr).2]

/-- What `preprocessor_create_macro` leaves is what the loop goes on with. -/
theorem generateMacroListFrom_created (ht : t.type = .macr) {result : Except Fault Preprocessor}
    (hcreate : preprocessorCreateMacro { preprocessor with tokens := t :: rest } source =
      result) : generateMacroListFrom preprocessor source (t :: rest) =
        result.bind fun preprocessor' => generateMacroListFrom preprocessor' source rest := by
  rw [generateMacroListFrom_macr ht, hcreate]

theorem collectsFrom_refused {token : Token} {message : String} (ht : t.type = .macr)
    (hcreate : preprocessorCreateMacro { preprocessor with tokens := t :: rest } source =
      .ok ({ preprocessor with tokens := t :: rest }.addError token message))
    (hnone : definedMacro source preprocessor.macroList t rest = none)
    (htoken : token ∈ (t :: rest).take 3) :
    CollectsFrom preprocessor source (t :: rest) ↔
      CollectsFrom ({ preprocessor with tokens := t :: rest }.addError token message) source
        rest := by
  unfold CollectsFrom
  rw [generateMacroListFrom_created ht hcreate, (definitionsOf_none ht hnone).1,
    (definitionsOf_none ht hnone).2]
  constructor
  · intro hfacts
    obtain ⟨generated, hgen, hmacros, errors, herrors, hrefused⟩ := hfacts
    obtain ⟨more, hmore⟩ := generateMacroListFrom_errors hgen
    obtain rfl : errors = _ :: more := by
      rw [herrors] at hmore
      exact List.append_cancel_left (hmore.trans (List.append_assoc _ [_] more))
    exact ⟨generated, hgen, hmacros, more, hmore, (List.forall₂_cons.mp hrefused).2⟩
  · intro hfacts
    obtain ⟨generated, hgen, hmacros, errors, herrors, hrefused⟩ := hfacts
    refine ⟨generated, hgen, hmacros, _ :: errors,
      herrors.trans (List.append_assoc _ [_] errors), .cons ?_ hrefused⟩
    exact ⟨_, rfl, htoken⟩

theorem collectsFrom_recorded {m : Macro} (ht : t.type = .macr)
    (hcreate : preprocessorCreateMacro { preprocessor with tokens := t :: rest } source =
      .ok (preprocessorAppendMacro { preprocessor with tokens := t :: rest } m))
    (hsome : definedMacro source preprocessor.macroList t rest = some m) :
    CollectsFrom preprocessor source (t :: rest) ↔
      CollectsFrom (preprocessorAppendMacro { preprocessor with tokens := t :: rest } m) source
        rest := by
  unfold CollectsFrom
  rw [generateMacroListFrom_created ht hcreate, (definitionsOf_some ht hsome).1,
    (definitionsOf_some ht hsome).2]
  have hlist : ∀ more, preprocessor.macroList ++ m :: more =
      (preprocessorAppendMacro { preprocessor with tokens := t :: rest } m).macroList ++ more :=
    fun more => (List.append_assoc _ [m] more).symm
  rw [hlist]
  rfl

/-- A definition that is closed at once is not recorded as it is. -/
theorem not_collectsFrom_missed {name newline endmacr closer : Token} {after : List Token}
    {m : Macro} {result : Preprocessor}
    (hordered : (t :: rest).Pairwise fun t u => t.index < u.index) (ht : t.type = .macr)
    (hcreate : preprocessorCreateMacro { preprocessor with tokens := t :: rest } source =
      .ok result)
    (hrest : rest = name :: newline :: endmacr :: closer :: after)
    (hsome : definedMacro source preprocessor.macroList t rest = some m)
    (hstart : m.startIndex = t.index) (hend : m.endIndex = closer.index)
    (hresult : (∃ token message,
        result = { preprocessor with tokens := t :: rest }.addError token message) ∨
      ∃ other, other.startIndex = t.index ∧ ∃ later ∈ after, other.endIndex = later.index ∧
        result = preprocessorAppendMacro { preprocessor with tokens := t :: rest } other) :
    ¬ CollectsFrom preprocessor source (t :: rest) := by
  intro hfacts
  obtain ⟨generated, hgen, hmacros, -⟩ := hfacts
  rw [(definitionsOf_some ht hsome).1] at hmacros
  rw [generateMacroListFrom_created ht hcreate] at hgen
  obtain ⟨added, hadded, hindex⟩ := generateMacroListFrom_extends hgen
  rw [hadded] at hmacros
  rcases hresult with ⟨token, message, rfl⟩ | ⟨other, -, later, hafter, hlater, rfl⟩
  · -- the next macro recorded would start behind this `macr`
    obtain rfl : added = m :: _ := List.append_cancel_left hmacros
    obtain ⟨u, hu, hsame⟩ := hindex m List.mem_cons_self
    have hlt := (List.pairwise_cons.mp hordered).1 u hu
    omega
  · -- the macro recorded ends behind this definition
    have hmacros' : preprocessor.macroList ++ other :: added = _ :=
      (List.append_assoc _ [other] added).symm.trans hmacros
    obtain rfl := (List.cons.inj (List.append_cancel_left hmacros')).1
    rw [hrest] at hordered
    have hlt := (List.pairwise_cons.mp (List.pairwise_cons.mp (List.pairwise_cons.mp
      (List.pairwise_cons.mp (List.pairwise_cons.mp hordered).2).2).2).2).1 later hafter
    omega

end Collects

/-- **The collection, from any point on.** -/
theorem collectsFrom_iff {source : CString} {tokens : List Token}
    (hordered : tokens.Pairwise fun t u => t.index < u.index)
    (hinside : ∀ t ∈ tokens, t.type = .eol → t.index < source.data.length)
    (preprocessor : Preprocessor) :
    CollectsFrom preprocessor source tokens ↔
      CollectedRight source preprocessor.macroList tokens := by
  induction tokens generalizing preprocessor with
  | nil =>
      refine ⟨fun _ => ⟨by simp [definitionsOf], by simp, by simp⟩, fun _ => ?_⟩
      exact ⟨_, rfl, by simp [definitionsOf], [], by simp, .nil⟩
  | cons t rest ih =>
      have ih' := ih (List.pairwise_cons.mp hordered).2
        fun u hu => hinside u (List.mem_cons_of_mem _ hu)
      by_cases heof : t.type = .eoft
      · rw [collectedRight_eof heof, collectsFrom_eof heof]
      by_cases hmacr : t.type = .macr
      case neg => rw [collectedRight_other hmacr heof, collectsFrom_other hmacr heof, ih']
      have houtcome : CreateOutcome preprocessor source t rest _ :=
        preprocessorCreateMacro_outcome hmacr
      generalize hcreate : preprocessorCreateMacro { preprocessor with tokens := t :: rest }
        source = result at houtcome
      cases houtcome with
      | cutOff hcut =>
          constructor
          · intro hfacts
            obtain ⟨generated, hgen, -⟩ := hfacts
            rw [generateMacroListFrom_created hmacr hcreate] at hgen
            cases hgen
          · intro h
            have hbroken := h.complete [] t rest rfl hmacr
            rw [definitionsOf_cutOff hmacr hcut, List.append_nil] at hbroken
            exact absurd hcut hbroken
      | refused hnone hcut htoken =>
          rw [collectedRight_refused hmacr hnone hcut,
            collectsFrom_refused hmacr hcreate hnone htoken]
          exact ih' _
      | recorded hsome hlater =>
          rw [collectedRight_recorded hmacr hsome (recorded_content hordered hinside hlater),
            collectsFrom_recorded hmacr hcreate hsome]
          exact ih' _
      | @missed name newline endmacr closer after m result hrest hsome hstart hend hcontent
          hresult =>
          refine iff_of_false (not_collectsFrom_missed hordered hmacr hcreate hrest hsome hstart
            hend hresult) ?_
          intro h
          have hempty : m.content.data = [] := by
            rw [hcontent]
            show (source.data.drop (newline.index + 1)).take
              (newline.index + 1 - (newline.index + 1)) = []
            rw [Nat.sub_self, List.take_zero]
          refine absurd hempty (h.body m ?_)
          rw [(definitionsOf_some hmacr hsome).1]
          exact List.mem_cons_self

/-- **Which macros are recorded.**  On the tokens of any text the code records
what the text defines, and reports every other `macr`, exactly when no
definition has an empty body, no `macr` stands behind the first end of the
file, and the tokens do not break off inside the first line of a definition. -/
theorem LexerInput.macrosCollected_iff (input : LexerInput) (filePath : String) :
    (∃ generated, preprocessorGenerateMacroList
        (preprocessorInitialize (lexerAnalyze input.lexer) filePath) input.source =
          .ok generated ∧
      MacrosCollected input.source input.tokens generated) ↔
        CollectedRight input.source [] input.tokens := by
  have hinside : ∀ t ∈ input.tokens, t.type = .eol → t.index < input.source.data.length := by
    intro t ht htype
    obtain ⟨hne, hslice⟩ := input.lossless.slice t ht (by rw [htype]; decide)
    by_contra hge
    rw [List.drop_of_length_le (by omega), List.take_nil] at hslice
    exact hne hslice.symm
  have hordered : input.tokens.Pairwise fun t u => t.index < u.index :=
    input.lossless.ordered.imp And.left
  refine Iff.trans ?_ (collectsFrom_iff hordered hinside
    (preprocessorInitialize (lexerAnalyze input.lexer) filePath))
  constructor
  · intro hfacts
    obtain ⟨generated, hgen, hmacros, herrors⟩ := hfacts
    exact ⟨generated, hgen, hmacros, _, rfl, herrors⟩
  · intro hfacts
    obtain ⟨generated, hgen, hmacros, errors, herrors, hrefused⟩ := hfacts
    obtain rfl : generated.errorHandler.errorList = errors := herrors
    exact ⟨generated, hgen, hmacros, hrefused⟩

/-- A definition whose body is empty: it is closed, and not recorded. -/
theorem macrosCollected_empty_body :
    ¬ ∃ generated, preprocessorGenerateMacroList
        (preprocessorInitialize
          (lexerAnalyze (LexerInput.file "sample" (bytes "macr M\nendmacr\n")).lexer) "sample")
        (LexerInput.file "sample" (bytes "macr M\nendmacr\n")).source = .ok generated ∧
      MacrosCollected (LexerInput.file "sample" (bytes "macr M\nendmacr\n")).source
        (LexerInput.file "sample" (bytes "macr M\nendmacr\n")).tokens generated := by
  intro hfacts
  obtain ⟨generated, hgen, hcollected⟩ := hfacts
  have hrecorded : (preprocessorGenerateMacroList
      (preprocessorInitialize
        (lexerAnalyze (LexerInput.file "sample" (bytes "macr M\nendmacr\n")).lexer) "sample")
      (LexerInput.file "sample" (bytes "macr M\nendmacr\n")).source).toOption.map
        (fun p => p.macroList.length) = some 0 := by decide +kernel
  have hdefined : (definitionsOf (LexerInput.file "sample" (bytes "macr M\nendmacr\n")).source []
      (LexerInput.file "sample" (bytes "macr M\nendmacr\n")).tokens).length = 1 := by
    decide +kernel
  rw [hgen] at hrecorded
  rw [← hcollected.macros] at hdefined
  have hlength : generated.macroList.length = 0 := Option.some.inj hrecorded
  omega

/-! ## Texts without definitions -/

/-- What the tokens of a lexer depend on. -/
def Lexer.place (lexer : Lexer) : CString × Nat × Nat × UInt8 × Nat :=
  (lexer.sourceCode, lexer.index, lexer.column, lexer.currentChar, lexer.lineNumber)

/-- A step moves the place alike. -/
theorem place_advance {lexer lexer' : Lexer} (h : lexer.place = lexer'.place) :
    (lexerAdvanceCharacter lexer).place = (lexerAdvanceCharacter lexer').place := by
  simp only [Lexer.place, Prod.mk.injEq] at h
  obtain ⟨hsource, hindex, hcolumn, hchar, hline⟩ := h
  simp only [Lexer.place, lexerAdvanceCharacter, hsource, hindex, hcolumn, hchar, hline]

theorem place_take {lexer lexer' : Lexer} (h : lexer.place = lexer'.place) (x : Lexeme) :
    (lexer.take x).place = (lexer'.take x).place := by
  show (lexerAdvanceCharacter^[x.text.length] lexer).place =
    (lexerAdvanceCharacter^[x.text.length] lexer').place
  induction x.text.length with
  | zero => exact h
  | succ n ih =>
      rw [Function.iterate_succ_apply', Function.iterate_succ_apply']
      exact place_advance ih

/-- The same lexemes at the same place give the same tokens. -/
theorem placeTokens_place {lexer lexer' : Lexer} (h : lexer.place = lexer'.place)
    (xs : List Lexeme) : placeTokens lexer xs = placeTokens lexer' xs := by
  induction xs generalizing lexer lexer' with
  | nil => rfl
  | cons x xs ih =>
      have htoken : x.tokenAt lexer = x.tokenAt lexer' := by
        simp only [Lexer.place, Prod.mk.injEq] at h
        obtain ⟨-, hindex, hcolumn, -, hline⟩ := h
        funext type
        simp only [Lexeme.tokenAt, hindex, hcolumn, hline]
      rw [placeTokens, placeTokens, htoken, ih (place_take h x)]

/-- The text of a file, lexed again from a string, has the tokens of the file,
with their places. -/
theorem LexerInput.tokens_again (filePath : String) (contents : List UInt8) (amPath : String) :
    (LexerInput.string amPath (LexerInput.file filePath contents).source).tokens =
      (LexerInput.file filePath contents).tokens := by
  have hsource : stringAppend stringCreate (LexerInput.file filePath contents).source =
      (LexerInput.file filePath contents).source := CString.ext (stringAppend_data _ _)
  have hplace : (LexerInput.string amPath (LexerInput.file filePath contents).source).lexer.place =
      (LexerInput.file filePath contents).lexer.place := by
    simp only [LexerInput.lexer, lexerInitializeFromString, Lexer.place, hsource]
    rfl
  obtain ⟨xs, hlex, heq⟩ := lexerAnalyze_eq
    (show (LexerInput.string amPath (LexerInput.file filePath contents).source).lexer.Synced
      from rfl)
  obtain ⟨ys, hlex', heq'⟩ := lexerAnalyze_eq
    (show (LexerInput.file filePath contents).lexer.Synced from rfl)
  have hrest : (LexerInput.string amPath (LexerInput.file filePath contents).source).lexer.rest =
      (LexerInput.file filePath contents).lexer.rest := congrArg CString.data hsource
  obtain rfl := hlex.unique (hrest ▸ hlex')
  rw [LexerInput.tokens, LexerInput.tokens, heq, heq', takeAll_tokenList, takeAll_tokenList,
    placeTokens_place hplace]
  rfl

/-- **Texts without a `macr`.**  Nothing is recorded or reported, the second
pass copies the text whatever token it starts at, and the copy of a file is
lexed to the tokens of the file. -/
theorem LexerInput.macroFree (input : LexerInput) (filePath : String)
    (hplain : ∀ t ∈ input.tokens, t.type ≠ .macr) :
    ∃ generated, preprocessorGenerateMacroList
        (preprocessorInitialize (lexerAnalyze input.lexer) filePath) input.source =
          .ok generated ∧
      generated.macroList = [] ∧ generated.errorHandler.errorList = [] ∧
      (∀ cursor, cursor <:+ input.tokens →
        (preprocessorExpandMacros { generated with tokens := cursor }
          input.source).processedSource = input.source) ∧
      ∀ path contents amPath, input = .file path contents →
        (LexerInput.string amPath
          (preprocessorExpandMacros generated input.source).processedSource).tokens =
            input.tokens := by
  have hgen := generateMacroListFrom_plain
    (preprocessorInitialize (lexerAnalyze input.lexer) filePath) input.source
    fun t (ht : t ∈ input.tokens.takeWhile _) => hplain t (List.takeWhile_subset _ ht)
  have hcopies : ∀ cursor, cursor <:+ input.tokens →
      (expandLoop [] input.source
        { index := 0, currentToken := cursor, processedSource := stringCreate }).processedSource =
          input.source := fun cursor hsuffix =>
    expandLoop_no_macros fun t ht => input.tokenSlice t (hsuffix.subset ht)
  refine ⟨_, hgen, rfl, rfl, hcopies, ?_⟩
  intro path contents amPath heq
  obtain rfl := heq
  have hcopy := hcopies _ (List.dropWhile_suffix fun t : Token => t.type != .eoft)
  exact (congrArg (fun source => (LexerInput.string amPath source).tokens) hcopy).trans
    (LexerInput.tokens_again path contents amPath)

/-- The theorem at a file with a comment and a blank line. -/
theorem LexerInput.macroFree_sample : ∃ generated, preprocessorGenerateMacroList
      (preprocessorInitialize
        (lexerAnalyze (LexerInput.file "sample" (bytes "a: stop ; b\n\n")).lexer) "sample")
      (LexerInput.file "sample" (bytes "a: stop ; b\n\n")).source = .ok generated ∧
    (preprocessorExpandMacros generated
      (LexerInput.file "sample" (bytes "a: stop ; b\n\n")).source).processedSource =
        (LexerInput.file "sample" (bytes "a: stop ; b\n\n")).source := by
  have hplain : ∀ t ∈ (LexerInput.file "sample" (bytes "a: stop ; b\n\n")).tokens,
      t.type ≠ .macr := by decide +kernel
  obtain ⟨generated, hgen, -, -, hcopies, -⟩ := LexerInput.macroFree _ "sample" hplain
  exact ⟨generated, hgen, hcopies generated.tokens
    (generateMacroListFrom_tokens hgen ▸ List.dropWhile_suffix _)⟩

end Assembler
