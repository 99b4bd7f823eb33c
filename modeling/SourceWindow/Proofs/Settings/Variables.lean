import SourceWindow.Proofs.Grammar.Names
import SourceWindow.Proofs.Text.Integer
import SourceWindow.Settings

/-!
Settings from variables. Each variable is valid or not by itself: it is unset or blank, or it
denotes a value. If all are valid the settings hold these values, and the standard one where there
is none. If not, the error is that of the first variable that is not valid.
-/

set_option autoImplicit false

namespace Except
variable {ε ε' α β : Type} {x : Except ε α} {e : ε} {e' : ε'} {a : α} {b : β}

theorem map_eq_ok_iff {f : α → β} : f <$> x = .ok b ↔ ∃ a, x = .ok a ∧ f a = b := by
  cases x <;> simp [Functor.map, Except.map]

theorem map_eq_error_iff {f : α → β} : f <$> x = .error e ↔ x = .error e := by
  cases x <;> simp [Functor.map, Except.map]

theorem bind_eq_ok_iff {f : α → Except ε β} : (x >>= f) = .ok b ↔ ∃ a, x = .ok a ∧ f a = .ok b := by
  cases x <;> simp [bind, Except.bind]

theorem bind_eq_error_iff {f : α → Except ε β} :
    (x >>= f) = .error e ↔ x = .error e ∨ ∃ a, x = .ok a ∧ f a = .error e := by
  cases x <;> simp [bind, Except.bind]

theorem mapError_eq_ok_iff {f : ε → ε'} : x.mapError f = .ok a ↔ x = .ok a := by
  cases x with
  | error e => exact ⟨nofun, nofun⟩
  | ok a' =>
    constructor
    · rintro ⟨⟩
      rfl
    · rintro ⟨⟩
      rfl

theorem mapError_eq_error_iff {f : ε → ε'} :
    x.mapError f = .error e' ↔ ∃ e, x = .error e ∧ f e = e' := by
  cases x with
  | error e =>
    constructor
    · rintro ⟨⟩
      exact ⟨e, rfl, rfl⟩
    · rintro ⟨_, ⟨⟩, rfl⟩
      rfl
  | ok a => exact ⟨nofun, nofun⟩

end Except

namespace SourceWindow
namespace Settings
open Text IntegerRange

section
variable {α : Type} {denotes : Text → α → Prop} {raw? : Option Text} {raw : Text}
  {v? : Option α}

/-- What a variable gives: nothing if it is unset or blank, and else what its text denotes without
the white space around it. -/
inductive Gives (denotes : Text → α → Prop) : Option Text → Option α → Prop where
  | unset : Gives denotes none none
  | blank {raw : Text} : raw.trim = [] → Gives denotes (some raw) none
  | value {raw : Text} {v : α} : raw.trim ≠ [] → denotes raw.trim v →
      Gives denotes (some raw) (some v)

def IsValid (denotes : Text → α → Prop) (raw? : Option Text) : Prop :=
  ∃ v?, Gives denotes raw? v?

theorem gives_of_blank (hblank : ∀ raw, raw? = some raw → raw.trim = []) :
    Gives denotes raw? v? ↔ v? = none := by
  constructor
  · intro h
    cases h with
    | unset => rfl
    | blank _ => rfl
    | value hne _ => exact absurd (hblank _ rfl) hne
  · rintro rfl
    cases raw? with
    | none => exact .unset
    | some raw => exact .blank (hblank raw rfl)

theorem gives_of_trim_ne_nil (hne : raw.trim ≠ []) :
    Gives denotes (some raw) v? ↔ ∃ v, denotes raw.trim v ∧ v? = some v := by
  constructor
  · intro h
    cases h with
    | blank hblank => exact absurd hblank hne
    | value _ hv => exact ⟨_, hv, rfl⟩
  · rintro ⟨v, hv, rfl⟩
    exact .value hne hv

theorem not_isValid_iff :
    ¬ IsValid denotes (some raw) ↔ raw.trim ≠ [] ∧ ∀ v, ¬ denotes raw.trim v := by
  constructor
  · intro h
    have hne : raw.trim ≠ [] := fun hblank => h ⟨none, .blank hblank⟩
    exact ⟨hne, fun v hv => h ⟨some v, .value hne hv⟩⟩
  · rintro ⟨hne, hnone⟩ ⟨v?, h⟩
    obtain ⟨v, hv, -⟩ := (gives_of_trim_ne_nil hne).1 h
    exact hnone v hv

end

def NamesGrammar (t : Text) (g : Grammar) : Prop := Grammar.ofName? t = some g

def DenotesCount (t : Text) (n : Nat) : Prop := unsigned64.Denotes t n

inductive FirstError (lookup : Text → Option Text) : SettingsError → Prop where
  | literalLimit {raw : Text} {cause : IntegerFault} :
      lookup literalLimitVariable = some raw → ¬ IsValid signed64.Denotes (some raw) →
      signed64.read raw.trim = .error cause → FirstError lookup (.literalLimit raw cause)
  | grammar {raw : Text} :
      IsValid signed64.Denotes (lookup literalLimitVariable) →
      lookup grammarVariable = some raw → ¬ IsValid NamesGrammar (some raw) →
      FirstError lookup (.grammar raw.trim)
  | maxFileBytes {raw : Text} {cause : IntegerFault} :
      IsValid signed64.Denotes (lookup literalLimitVariable) →
      IsValid NamesGrammar (lookup grammarVariable) →
      lookup maxFileBytesVariable = some raw → ¬ IsValid DenotesCount (some raw) →
      unsigned64.read raw.trim = .error cause → FirstError lookup (.maxFileBytes raw cause)

theorem readLiteralLimit_eq_ok_iff {raw : Text} {v : Int} :
    readLiteralLimit raw = .ok v ↔ signed64.Denotes raw.trim v := by
  rw [← read_eq_ok_iff (by decide), readLiteralLimit, Except.mapError_eq_ok_iff]

theorem readLiteralLimit_eq_error_iff {raw : Text} {e : SettingsError} :
    readLiteralLimit raw = .error e ↔
      ∃ cause, signed64.read raw.trim = .error cause ∧ .literalLimit raw cause = e := by
  rw [readLiteralLimit, Except.mapError_eq_error_iff]

theorem readGrammar_eq_ok_iff {raw : Text} {g : Grammar} :
    readGrammar raw = .ok g ↔ NamesGrammar raw.trim g := by
  rw [readGrammar, NamesGrammar]
  cases Grammar.ofName? raw.trim <;> simp

theorem readGrammar_eq_error_iff {raw : Text} {e : SettingsError} :
    readGrammar raw = .error e ↔ (∀ g, ¬ NamesGrammar raw.trim g) ∧ .grammar raw.trim = e := by
  simp only [readGrammar, NamesGrammar]
  cases Grammar.ofName? raw.trim <;> simp

theorem readMaxFileBytes_eq_ok_iff {raw : Text} {n : Nat} :
    readMaxFileBytes raw = .ok n ↔ DenotesCount raw.trim n := by
  rw [DenotesCount, ← read_eq_ok_iff (by decide), readMaxFileBytes, Except.mapError_eq_ok_iff]
  cases hread : unsigned64.read raw.trim with
  | error cause => simp [Except.map]
  | ok v =>
    have hpos := (denotes_of_read (by decide) hread).contains.1
    simp only [unsigned64] at hpos
    simp only [Except.map, Except.ok.injEq]
    omega

theorem readMaxFileBytes_eq_error_iff {raw : Text} {e : SettingsError} :
    readMaxFileBytes raw = .error e ↔
      ∃ cause, unsigned64.read raw.trim = .error cause ∧ .maxFileBytes raw cause = e := by
  rw [readMaxFileBytes, Except.mapError_eq_error_iff]
  cases unsigned64.read raw.trim <;> simp [Except.map]

variable {lookup : Text → Option Text}

theorem value?_eq_some_iff {name raw : Text} :
    value? lookup name = some raw ↔ lookup name = some raw ∧ raw.trim ≠ [] := by
  simp [value?, Option.filter_eq_some_iff]

theorem value?_eq_none_iff {name : Text} :
    value? lookup name = none ↔ ∀ raw, lookup name = some raw → raw.trim = [] := by
  simp [value?, Option.filter_eq_none_iff]

section
variable {α : Type} {denotes : Text → α → Prop} {read : Text → Except SettingsError α}
  (hread : ∀ {raw v}, read raw = .ok v ↔ denotes raw.trim v) {name : Text}
include hread

theorem mapM_value?_eq_ok_iff {v? : Option α} :
    (value? lookup name).mapM read = .ok v? ↔ Gives denotes (lookup name) v? := by
  cases hvalue : value? lookup name with
  | none =>
    rw [gives_of_blank (value?_eq_none_iff.1 hvalue), eq_comm (a := v?)]
    simp only [Option.mapM_none, pure, Except.pure, Except.ok.injEq]
  | some raw =>
    obtain ⟨hlookup, hne⟩ := value?_eq_some_iff.1 hvalue
    rw [hlookup, gives_of_trim_ne_nil hne, Option.mapM_some, Except.map_eq_ok_iff]
    simp only [hread, eq_comm]

theorem mapM_value?_eq_error_iff {e : SettingsError} :
    (value? lookup name).mapM read = .error e ↔
      ∃ raw, lookup name = some raw ∧ ¬ IsValid denotes (some raw) ∧ read raw = .error e := by
  constructor
  · intro h
    cases hvalue : value? lookup name with
    | none =>
      rw [hvalue] at h
      cases h
    | some raw =>
      obtain ⟨hlookup, hne⟩ := value?_eq_some_iff.1 hvalue
      rw [hvalue, Option.mapM_some, Except.map_eq_error_iff] at h
      have hnone (v : α) : ¬ denotes raw.trim v := by simp [← hread, h]
      exact ⟨raw, hlookup, not_isValid_iff.2 ⟨hne, hnone⟩, h⟩
  · rintro ⟨raw, hlookup, hinvalid, herror⟩
    have hne := (not_isValid_iff.1 hinvalid).1
    rw [value?_eq_some_iff.2 ⟨hlookup, hne⟩, Option.mapM_some, Except.map_eq_error_iff]
    exact herror

end

theorem ofLookup_eq_ok_iff {s : Settings} :
    ofLookup lookup = .ok s ↔ ∃ limit? grammar? count?,
      Gives signed64.Denotes (lookup literalLimitVariable) limit? ∧
      Gives NamesGrammar (lookup grammarVariable) grammar? ∧
      Gives DenotesCount (lookup maxFileBytesVariable) count? ∧
      s = { literalLimit := limit?.getD TruncationLimit.standardBytes
            defaultGrammar := grammar?.getD .standard
            maxFileBytes := count? } := by
  simp only [ofLookup, Except.bind_eq_ok_iff, mapM_value?_eq_ok_iff readLiteralLimit_eq_ok_iff,
    mapM_value?_eq_ok_iff readGrammar_eq_ok_iff, mapM_value?_eq_ok_iff readMaxFileBytes_eq_ok_iff,
    pure, Except.pure, Except.ok.injEq, exists_and_left, eq_comm (a := s)]

theorem ofLookup_eq_error_iff {e : SettingsError} :
    ofLookup lookup = .error e ↔ FirstError lookup e := by
  simp only [ofLookup, Except.bind_eq_error_iff, mapM_value?_eq_ok_iff readLiteralLimit_eq_ok_iff,
    mapM_value?_eq_ok_iff readGrammar_eq_ok_iff,
    mapM_value?_eq_error_iff readLiteralLimit_eq_ok_iff,
    mapM_value?_eq_error_iff readGrammar_eq_ok_iff,
    mapM_value?_eq_error_iff readMaxFileBytes_eq_ok_iff, readLiteralLimit_eq_error_iff,
    readGrammar_eq_error_iff, readMaxFileBytes_eq_error_iff, pure, Except.pure, reduceCtorEq,
    and_false, exists_false, or_false]
  constructor
  · rintro (⟨raw, hraw, hinvalid, cause, hcause, rfl⟩ |
      ⟨limit?, hlimit, ⟨raw, hraw, hinvalid, -, rfl⟩ |
        ⟨grammar?, hgrammar, raw, hraw, hinvalid, cause, hcause, rfl⟩⟩)
    · exact .literalLimit hraw hinvalid hcause
    · exact .grammar ⟨limit?, hlimit⟩ hraw hinvalid
    · exact .maxFileBytes ⟨limit?, hlimit⟩ ⟨grammar?, hgrammar⟩ hraw hinvalid hcause
  · intro h
    cases h with
    | literalLimit hraw hinvalid hcause => exact .inl ⟨_, hraw, hinvalid, _, hcause, rfl⟩
    | grammar hlimit hraw hinvalid =>
      obtain ⟨limit?, hlimit⟩ := hlimit
      have hnone := (not_isValid_iff.1 hinvalid).2
      exact .inr ⟨limit?, hlimit, .inl ⟨_, hraw, hinvalid, hnone, rfl⟩⟩
    | maxFileBytes hlimit hgrammar hraw hinvalid hcause =>
      obtain ⟨limit?, hlimit⟩ := hlimit
      obtain ⟨grammar?, hgrammar⟩ := hgrammar
      exact .inr ⟨limit?, hlimit, .inr ⟨grammar?, hgrammar, _, hraw, hinvalid, _, hcause, rfl⟩⟩

theorem ofLookup_isOk_iff :
    (∃ s, ofLookup lookup = .ok s) ↔
      IsValid signed64.Denotes (lookup literalLimitVariable) ∧
      IsValid NamesGrammar (lookup grammarVariable) ∧
      IsValid DenotesCount (lookup maxFileBytesVariable) := by
  simp only [ofLookup_eq_ok_iff]
  constructor
  · rintro ⟨s, limit?, grammar?, count?, hlimit, hgrammar, hcount, -⟩
    exact ⟨⟨limit?, hlimit⟩, ⟨grammar?, hgrammar⟩, ⟨count?, hcount⟩⟩
  · rintro ⟨⟨limit?, hlimit⟩, ⟨grammar?, hgrammar⟩, ⟨count?, hcount⟩⟩
    exact ⟨_, limit?, grammar?, count?, hlimit, hgrammar, hcount, rfl⟩

section
variable {padded : Text}

theorem gives_signedDecimal {v : Int} (hv : signed64.Contains v)
    (hpad : Padded (signedDecimal v) padded) :
    Gives signed64.Denotes (some padded) (some v) := by
  have htrim := hpad.trim_eq (signedDecimal_ne_nil v) fun _ => isVisible_of_mem_signedDecimal
  exact .value (htrim ▸ signedDecimal_ne_nil v) (htrim ▸ denotes_signedDecimal hv)

theorem gives_nameOf {g : Grammar} {name : Text} (hname : g.IsNameOf name)
    (hpad : Padded name padded) : Gives NamesGrammar (some padded) (some g) := by
  have htrim := hpad.trim_eq hname.ne_nil fun _ => hname.isVisible
  exact .value (htrim ▸ hname.ne_nil) (htrim ▸ hname.ofName?_eq (padded_self name))

theorem gives_decimal {n : Nat} (hn : unsigned64.Contains n) (hpad : Padded (decimal n) padded) :
    Gives DenotesCount (some padded) (some n) := by
  have hne := (isNumeral_decimal n).1
  have htrim := hpad.trim_eq hne fun _ => isVisible_of_mem_decimal
  exact .value (htrim ▸ hne) (htrim ▸ denotes_decimal hn)

end

/-- Settings are read just from variables that are all valid, and each field is what its own
variable gives, or the standard. Else the error is that of the first variable that is not valid.
Numbers and a grammar written out come back, with any white space around them and the name in
letters of either case. -/
theorem ofLookup_accepts_valid (lookup : Text → Option Text) :
    ((∃ s, ofLookup lookup = .ok s) ↔
      IsValid signed64.Denotes (lookup literalLimitVariable) ∧
      IsValid NamesGrammar (lookup grammarVariable) ∧
      IsValid DenotesCount (lookup maxFileBytesVariable)) ∧
    (∀ s, ofLookup lookup = .ok s ↔ ∃ limit? grammar? count?,
      Gives signed64.Denotes (lookup literalLimitVariable) limit? ∧
      Gives NamesGrammar (lookup grammarVariable) grammar? ∧
      Gives DenotesCount (lookup maxFileBytesVariable) count? ∧
      s = { literalLimit := limit?.getD TruncationLimit.standardBytes
            defaultGrammar := grammar?.getD .standard
            maxFileBytes := count? }) ∧
    (∀ e, ofLookup lookup = .error e ↔ FirstError lookup e) ∧
    ∀ (limit : Int) (g : Grammar) (count : Nat) (name rawLimit rawName rawCount : Text),
      signed64.Contains limit → g.IsNameOf name → unsigned64.Contains count →
      Padded (signedDecimal limit) rawLimit → Padded name rawName →
      Padded (decimal count) rawCount →
      lookup literalLimitVariable = some rawLimit → lookup grammarVariable = some rawName →
      lookup maxFileBytesVariable = some rawCount →
      ofLookup lookup =
        .ok { literalLimit := limit, defaultGrammar := g, maxFileBytes := some count } := by
  refine ⟨ofLookup_isOk_iff, fun _ => ofLookup_eq_ok_iff, fun _ => ofLookup_eq_error_iff, ?_⟩
  intro limit g count name rawLimit rawName rawCount hlimit hname hcount hpadLimit hpadName
    hpadCount hrawLimit hrawName hrawCount
  refine ofLookup_eq_ok_iff.2 ⟨some limit, some g, some count, ?_, ?_, ?_, rfl⟩
  · rw [hrawLimit]
    exact gives_signedDecimal hlimit hpadLimit
  · rw [hrawName]
    exact gives_nameOf hname hpadName
  · rw [hrawCount]
    exact gives_decimal hcount hpadCount

theorem ofLookup_accepts_valid_mixed :
    ofLookup (fun name =>
      if name = literalLimitVariable then some (ofString " -9223372036854775808\n")
      else if name = grammarVariable then some (ofString "PyThon")
      else if name = maxFileBytesVariable then some (ofString "\t18446744073709551615 ")
      else none) =
    .ok { literalLimit := -9223372036854775808
          defaultGrammar := .python
          maxFileBytes := some 18446744073709551615 } :=
  (ofLookup_accepts_valid _).2.2.2 _ .python _ (ofString "PyThon") _ _ _ (by decide) rfl (by decide)
    ⟨[' '], ['\n'], rfl, by simp [isBlank], by simp [isBlank]⟩ (padded_self _)
    ⟨['\t'], [' '], rfl, by simp [isBlank], by simp [isBlank]⟩ rfl rfl rfl

example : ofLookup (fun _ => some (ofString "many")) =
    .error (.literalLimit (ofString "many") .invalidDigit) := rfl

end Settings
end SourceWindow
