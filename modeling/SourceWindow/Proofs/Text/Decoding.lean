import SourceWindow.Text.Utf8
import SourceWindow.Proofs.Text.Cuts
import Mathlib.Data.List.Forall2

/-!
Laws of decoding. What is read at the front of some bytes is the form of a character, or else a
replacement character takes the place of the longest part that could still have become such a form.
So a text is read back from its bytes, and two parts of some bytes can be decoded apart from each
other unless the second begins with a continuation byte.
-/

set_option autoImplicit false

namespace SourceWindow.Utf8

/-- Characters begin with this byte: each byte behind it has a test to pass, and the byte itself has
a value. -/
inductive Leads (lead : UInt8) : List (UInt8 → Bool) → Nat → Prop where
  | one : lead.toNat ≤ 127 → Leads lead [] lead.toNat
  | two : 194 ≤ lead.toNat → lead.toNat ≤ 223 → Leads lead [isContinuation] (lead.toNat % 32)
  | three : 224 ≤ lead.toNat → lead.toNat ≤ 239 →
      Leads lead [secondOfThree lead, isContinuation] (lead.toNat % 16)
  | four : 240 ≤ lead.toNat → lead.toNat ≤ 244 →
      Leads lead [secondOfFour lead, isContinuation, isContinuation] (lead.toNat % 8)

def passing : List (UInt8 → Bool) → List UInt8 → Nat
  | test :: tests, b :: bytes => if test b then passing tests bytes + 1 else 0
  | _, _ => 0

abbrev Passes (tests : List (UInt8 → Bool)) (bytes : List UInt8) : Prop :=
  List.Forall₂ (fun test b => test b = true) tests bytes

section
variable {lead b : UInt8}

theorem isContinuation_iff : isContinuation b = true ↔ 128 ≤ b.toNat ∧ b.toNat ≤ 191 := by
  simp [isContinuation, UInt8.le_iff_toNat_le]

theorem second_iff {x low y high : UInt8} (hxy : x.toNat ≠ y.toNat) (hlow : 128 ≤ low.toNat)
    (hhigh : high.toNat ≤ 191) :
    (if lead == x then decide (low ≤ b) && decide (b ≤ 0xBF)
      else if lead == y then decide (0x80 ≤ b) && decide (b ≤ high)
      else isContinuation b) = true ↔
    (128 ≤ b.toNat ∧ b.toNat ≤ 191) ∧ (lead.toNat = x.toNat → low.toNat ≤ b.toNat) ∧
      (lead.toNat = y.toNat → b.toNat ≤ high.toNat) := by
  simp only [beq_iff_eq, ← UInt8.toNat_inj]
  split
  · simp [UInt8.le_iff_toNat_le]
    omega
  · split
    · simp [UInt8.le_iff_toNat_le]
      omega
    · rw [isContinuation_iff]
      omega

theorem secondOfThree_iff : secondOfThree lead b = true ↔
    (128 ≤ b.toNat ∧ b.toNat ≤ 191) ∧ (lead.toNat = 224 → 160 ≤ b.toNat) ∧
      (lead.toNat = 237 → b.toNat ≤ 159) :=
  second_iff (by decide) (by decide) (by decide)

theorem secondOfFour_iff : secondOfFour lead b = true ↔
    (128 ≤ b.toNat ∧ b.toNat ≤ 191) ∧ (lead.toNat = 240 → 144 ≤ b.toNat) ∧
      (lead.toNat = 244 → b.toNat ≤ 143) :=
  second_iff (by decide) (by decide) (by decide)

end

theorem next_of_leads {lead : UInt8} {tests : List (UInt8 → Bool)} {value : Nat}
    (h : Leads lead tests value) (rest : List UInt8) :
    next lead rest =
      (if passing tests rest = tests.length then assemble value (rest.take tests.length)
        else replacement, passing tests rest) := by
  unfold next
  simp only [UInt8.lt_iff_toNat_lt, UInt8.le_iff_toNat_le, UInt8.reduceToNat, Bool.and_eq_true,
    decide_eq_true_eq]
  cases h with
  | one h =>
    rw [if_pos (by omega)]
    rfl
  | two hlo hhi =>
    rw [if_neg (by omega), if_pos (by omega)]
    rcases rest with _ | ⟨a, rest⟩
    · rfl
    · cases ha : isContinuation a <;> simp [passing, ha]
  | three hlo hhi =>
    rw [if_neg (by omega), if_neg (by omega), if_pos (by omega)]
    rcases rest with _ | ⟨a, _ | ⟨b, rest⟩⟩
    · rfl
    · cases ha : secondOfThree lead a <;> simp [passing, ha]
    · cases ha : secondOfThree lead a <;> cases hb : isContinuation b <;> simp [passing, ha, hb]
  | four hlo hhi =>
    rw [if_neg (by omega), if_neg (by omega), if_neg (by omega), if_pos (by omega)]
    rcases rest with _ | ⟨a, _ | ⟨b, _ | ⟨c, rest⟩⟩⟩
    · rfl
    · cases ha : secondOfFour lead a <;> simp [passing, ha]
    · cases ha : secondOfFour lead a <;> cases hb : isContinuation b <;> simp [passing, ha, hb]
    · cases ha : secondOfFour lead a <;> cases hb : isContinuation b <;>
        cases hc : isContinuation c <;> simp [passing, ha, hb, hc]

theorem next_of_not_leads {lead : UInt8} (h : ∀ tests value, ¬ Leads lead tests value)
    (rest : List UInt8) : next lead rest = (replacement, 0) := by
  have h1 : ¬ lead.toNat ≤ 127 := fun hle => h _ _ (.one hle)
  have h2 : ¬ (194 ≤ lead.toNat ∧ lead.toNat ≤ 223) := fun hin => h _ _ (.two hin.1 hin.2)
  have h3 : ¬ (224 ≤ lead.toNat ∧ lead.toNat ≤ 239) := fun hin => h _ _ (.three hin.1 hin.2)
  have h4 : ¬ (240 ≤ lead.toNat ∧ lead.toNat ≤ 244) := fun hin => h _ _ (.four hin.1 hin.2)
  unfold next
  simp only [UInt8.lt_iff_toNat_lt, UInt8.le_iff_toNat_le, UInt8.reduceToNat, Bool.and_eq_true,
    decide_eq_true_eq]
  rw [if_neg (by omega), if_neg h2, if_neg h3, if_neg h4]

theorem Leads.tests_unique {lead : UInt8} {tests tests' : List (UInt8 → Bool)} {value value' : Nat}
    (h : Leads lead tests value) (h' : Leads lead tests' value') : tests = tests' := by
  cases h <;> cases h' <;> first | rfl | omega

section
variable {c : Char}

theorem toNat_ofNat {n : Nat} (h : n.isValidChar) : (Char.ofNat n).toNat = n := by
  unfold Char.ofNat
  rw [dif_pos h]
  rfl

theorem utf8EncodeChar_one (h : c.toNat ≤ 0x7F) :
    String.utf8EncodeChar c = [UInt8.ofNat c.toNat] :=
  if_pos h

theorem utf8EncodeChar_two (hlo : 0x80 ≤ c.toNat) (hhi : c.toNat ≤ 0x7FF) :
    String.utf8EncodeChar c =
      [UInt8.ofNat (c.toNat / 64 % 32 + 192), UInt8.ofNat (c.toNat % 64 + 128)] :=
  (if_neg (show ¬ c.toNat ≤ 0x7F by omega)).trans (if_pos hhi)

theorem utf8EncodeChar_three (hlo : 0x800 ≤ c.toNat) (hhi : c.toNat ≤ 0xFFFF) :
    String.utf8EncodeChar c =
      [UInt8.ofNat (c.toNat / 4096 % 16 + 224), UInt8.ofNat (c.toNat / 64 % 64 + 128),
        UInt8.ofNat (c.toNat % 64 + 128)] :=
  (if_neg (show ¬ c.toNat ≤ 0x7F by omega)).trans <|
    (if_neg (show ¬ c.toNat ≤ 0x7FF by omega)).trans (if_pos hhi)

theorem utf8EncodeChar_four (hlo : 0x10000 ≤ c.toNat) :
    String.utf8EncodeChar c =
      [UInt8.ofNat (c.toNat / 262144 % 8 + 240), UInt8.ofNat (c.toNat / 4096 % 64 + 128),
        UInt8.ofNat (c.toNat / 64 % 64 + 128), UInt8.ofNat (c.toNat % 64 + 128)] :=
  (if_neg (show ¬ c.toNat ≤ 0x7F by omega)).trans <|
    (if_neg (show ¬ c.toNat ≤ 0x7FF by omega)).trans <|
      if_neg (show ¬ c.toNat ≤ 0xFFFF by omega)

end

theorem utf8EncodeChar_assemble {lead : UInt8} {tests : List (UInt8 → Bool)} {value : Nat}
    {tail : List UInt8} (h : Leads lead tests value) (ht : Passes tests tail) :
    String.utf8EncodeChar (assemble value tail) = lead :: tail := by
  cases h with
  | one h =>
    cases ht
    have hc := toNat_ofNat (n := lead.toNat) (.inl (by omega))
    rw [assemble, List.foldl_nil, utf8EncodeChar_one (by omega), hc, UInt8.ofNat_toNat]
  | two hlo hhi =>
    obtain _ | @⟨-, a, -, -, ha, _ | _⟩ := ht
    rw [isContinuation_iff] at ha
    have hc := toNat_ofNat (n := lead.toNat % 32 * 64 + a.toNat % 64) (.inl (by omega))
    rw [assemble, List.foldl_cons, List.foldl_nil, utf8EncodeChar_two (by omega) (by omega), hc]
    simp only [← UInt8.toNat_inj, List.cons.injEq, UInt8.toNat_ofNat', and_true]
    omega
  | three hlo hhi =>
    obtain _ | @⟨-, a, -, -, ha, _ | @⟨-, b, -, -, hb, _ | _⟩⟩ := ht
    rw [secondOfThree_iff] at ha
    rw [isContinuation_iff] at hb
    have hc := toNat_ofNat (n := (lead.toNat % 16 * 64 + a.toNat % 64) * 64 + b.toNat % 64) (by
      simp only [Nat.isValidChar]
      omega)
    rw [assemble]
    simp only [List.foldl_cons, List.foldl_nil]
    rw [utf8EncodeChar_three (by omega) (by omega), hc]
    simp only [← UInt8.toNat_inj, List.cons.injEq, UInt8.toNat_ofNat', and_true]
    omega
  | four hlo hhi =>
    obtain _ | @⟨-, a, -, -, ha, _ | @⟨-, b, -, -, hb, _ | @⟨-, d, -, -, hd, _ | _⟩⟩⟩ := ht
    rw [secondOfFour_iff] at ha
    rw [isContinuation_iff] at hb hd
    have hc := toNat_ofNat
      (n := ((lead.toNat % 8 * 64 + a.toNat % 64) * 64 + b.toNat % 64) * 64 + d.toNat % 64) (by
        simp only [Nat.isValidChar]
        omega)
    rw [assemble]
    simp only [List.foldl_cons, List.foldl_nil]
    rw [utf8EncodeChar_four (by omega), hc]
    simp only [← UInt8.toNat_inj, List.cons.injEq, UInt8.toNat_ofNat', and_true]
    omega

/-- The form of a character is a lead byte and bytes that pass its tests. -/
theorem exists_leads {c : Char} {lead : UInt8} {tail : List UInt8}
    (h : String.utf8EncodeChar c = lead :: tail) :
    ∃ tests value, Leads lead tests value ∧ Passes tests tail := by
  have hvalid : c.toNat.isValidChar := c.valid
  simp only [Nat.isValidChar] at hvalid
  have htoNat (n : Nat) (hn : n < 256) : (UInt8.ofNat n).toNat = n :=
    UInt8.toNat_ofNat_of_lt' hn
  rcases Nat.lt_or_ge c.toNat 0x80 with h1 | h1
  · rw [utf8EncodeChar_one (by omega)] at h
    obtain ⟨rfl, rfl⟩ := List.cons.inj h
    have hlead := htoNat c.toNat (by omega)
    exact ⟨_, _, .one (by omega), .nil⟩
  rcases Nat.lt_or_ge c.toNat 0x800 with h2 | h2
  · rw [utf8EncodeChar_two h1 (by omega)] at h
    obtain ⟨rfl, rfl⟩ := List.cons.inj h
    have hlead := htoNat (c.toNat / 64 % 32 + 192) (by omega)
    have ha := htoNat (c.toNat % 64 + 128) (by omega)
    exact ⟨_, _, .two (by omega) (by omega), .cons (isContinuation_iff.2 (by omega)) .nil⟩
  rcases Nat.lt_or_ge c.toNat 0x10000 with h3 | h3
  · rw [utf8EncodeChar_three h2 (by omega)] at h
    obtain ⟨rfl, rfl⟩ := List.cons.inj h
    have hlead := htoNat (c.toNat / 4096 % 16 + 224) (by omega)
    have ha := htoNat (c.toNat / 64 % 64 + 128) (by omega)
    have hb := htoNat (c.toNat % 64 + 128) (by omega)
    exact ⟨_, _, .three (by omega) (by omega), .cons (secondOfThree_iff.2 (by omega)) <|
      .cons (isContinuation_iff.2 (by omega)) .nil⟩
  · rw [utf8EncodeChar_four h3] at h
    obtain ⟨rfl, rfl⟩ := List.cons.inj h
    have hlead := htoNat (c.toNat / 262144 % 8 + 240) (by omega)
    have ha := htoNat (c.toNat / 4096 % 64 + 128) (by omega)
    have hb := htoNat (c.toNat / 64 % 64 + 128) (by omega)
    have hd := htoNat (c.toNat % 64 + 128) (by omega)
    exact ⟨_, _, .four (by omega) (by omega), .cons (secondOfFour_iff.2 (by omega)) <|
      .cons (isContinuation_iff.2 (by omega)) <| .cons (isContinuation_iff.2 (by omega)) .nil⟩

section
variable {tests : List (UInt8 → Bool)} {bytes : List UInt8}

theorem passing_le_left (tests : List (UInt8 → Bool)) (bytes : List UInt8) :
    passing tests bytes ≤ tests.length := by
  fun_induction passing tests bytes <;> simp_all

theorem passing_le_right (tests : List (UInt8 → Bool)) (bytes : List UInt8) :
    passing tests bytes ≤ bytes.length := by
  fun_induction passing tests bytes <;> simp_all

theorem passes_take_passing (tests : List (UInt8 → Bool)) (bytes : List UInt8) :
    Passes (tests.take (passing tests bytes)) (bytes.take (passing tests bytes)) := by
  fun_induction passing tests bytes <;> simp_all

theorem length_le_passing {passed : List UInt8} (rest : List UInt8)
    (h : Passes (tests.take passed.length) passed) :
    passed.length ≤ passing tests (passed ++ rest) := by
  induction passed generalizing tests with
  | nil => simp
  | cons b passed ih =>
    cases tests with
    | nil => cases h
    | cons test tests =>
      obtain ⟨hb, h⟩ := List.forall₂_cons.1 h
      simpa [passing, hb] using ih h

theorem passing_append {bytes' : List UInt8}
    (h : ∀ test ∈ tests, ∀ b ∈ bytes'.head?, test b = false) :
    passing tests (bytes ++ bytes') = passing tests bytes := by
  induction bytes generalizing tests with
  | nil => cases tests <;> cases bytes' <;> simp_all [passing]
  | cons b bytes ih => cases tests <;> simp_all [passing]

end

section
variable {lead : UInt8} {tests : List (UInt8 → Bool)} {value : Nat}

theorem Leads.isContinuation_of_test (h : Leads lead tests value) {test : UInt8 → Bool}
    (ht : test ∈ tests) {b : UInt8} (hb : test b = true) : isContinuation b = true := by
  cases h with
  | one => cases ht
  | two => rwa [List.mem_singleton.1 ht] at hb
  | three =>
    rcases List.mem_pair.1 ht with rfl | rfl
    · exact isContinuation_iff.2 (secondOfThree_iff.1 hb).1
    · exact hb
  | four =>
    rcases List.mem_cons.1 ht with rfl | ht
    · exact isContinuation_iff.2 (secondOfFour_iff.1 hb).1
    · rcases List.mem_pair.1 ht with rfl | rfl <;> exact hb

theorem exists_passes (h : ∀ test ∈ tests, ∃ b, test b = true) : ∃ tail, Passes tests tail := by
  induction tests with
  | nil => exact ⟨[], .nil⟩
  | cons test tests ih =>
    obtain ⟨b, hb⟩ := h test List.mem_cons_self
    obtain ⟨tail, ht⟩ := ih fun test ht => h test (List.mem_cons_of_mem _ ht)
    exact ⟨b :: tail, .cons hb ht⟩

theorem Leads.exists_test (h : Leads lead tests value) {test : UInt8 → Bool} (ht : test ∈ tests) :
    ∃ b, test b = true := by
  have hcontinuation : ∃ b, isContinuation b = true := ⟨0x80, rfl⟩
  cases h with
  | one => cases ht
  | two => rwa [List.mem_singleton.1 ht]
  | three =>
    rcases List.mem_pair.1 ht with rfl | rfl
    · by_cases hlead : lead.toNat = 237
      · exact ⟨0x80, secondOfThree_iff.2 (by simp [hlead])⟩
      · exact ⟨0xA0, secondOfThree_iff.2 (by simp [hlead])⟩
    · exact hcontinuation
  | four =>
    rcases List.mem_cons.1 ht with rfl | ht
    · by_cases hlead : lead.toNat = 244
      · exact ⟨0x80, secondOfFour_iff.2 (by simp [hlead])⟩
      · exact ⟨0x90, secondOfFour_iff.2 (by simp [hlead])⟩
    · rcases List.mem_pair.1 ht with rfl | rfl <;> exact hcontinuation

theorem exists_prefix_iff {passed : List UInt8} :
    (∃ c, lead :: passed <+: String.utf8EncodeChar c) ↔
      ∃ tests value, Leads lead tests value ∧ Passes (tests.take passed.length) passed := by
  constructor
  · rintro ⟨c, more, hc⟩
    rw [List.cons_append] at hc
    obtain ⟨tests, value, hlead, hpass⟩ := exists_leads hc.symm
    have htake := List.forall₂_take passed.length hpass
    rw [List.take_left] at htake
    exact ⟨tests, value, hlead, htake⟩
  · rintro ⟨tests, value, hlead, hpass⟩
    obtain ⟨tail, htail⟩ : ∃ tail, Passes (tests.drop passed.length) tail :=
      exists_passes fun test ht => hlead.exists_test (List.mem_of_mem_drop ht)
    have hall : Passes (tests.take passed.length ++ tests.drop passed.length) (passed ++ tail) :=
      List.rel_append hpass htail
    rw [List.take_append_drop] at hall
    exact ⟨_, tail, (utf8EncodeChar_assemble hlead hall).symm⟩

theorem passing_of_passes {tail : List UInt8} (h : Passes tests tail) (rest : List UInt8) :
    passing tests (tail ++ rest) = tests.length := by
  have hlength := h.length_eq
  have htake : Passes (tests.take tail.length) tail := by rwa [← hlength, List.take_length]
  have hge := length_le_passing rest htake
  have hle := passing_le_left tests (tail ++ rest)
  omega

theorem utf8EncodeChar_injective {c d : Char}
    (h : String.utf8EncodeChar c = String.utf8EncodeChar d) : c = d := by
  have hbytes : Text.bytes [c] = Text.bytes [d] := by simp [Text.bytes, h]
  simpa using Text.bytes_injective hbytes

theorem next_of_utf8EncodeChar {c : Char} {tail : List UInt8}
    (h : String.utf8EncodeChar c = lead :: tail) (rest : List UInt8) :
    next lead (tail ++ rest) = (c, tail.length) := by
  obtain ⟨tests, value, hlead, hpass⟩ := exists_leads h
  have hassemble : assemble value tail = c :=
    utf8EncodeChar_injective ((utf8EncodeChar_assemble hlead hpass).trans h.symm)
  rw [next_of_leads hlead, passing_of_passes hpass, if_pos rfl, hpass.length_eq, List.take_left,
    hassemble]

/-- Bytes that begin with the form of no character are read as a replacement. What it replaces is
one byte or begins the form of a character, and no longer part does. -/
theorem next_of_forall_not_prefix {rest : List UInt8}
    (h : ∀ c, ¬ String.utf8EncodeChar c <+: lead :: rest) :
    (next lead rest).1 = replacement ∧
      ((next lead rest).2 = 0 ∨
        ∃ c, lead :: rest.take (next lead rest).2 <+: String.utf8EncodeChar c) ∧
      ∀ passed more, rest = passed ++ more → (next lead rest).2 < passed.length →
        ¬ ∃ c, lead :: passed <+: String.utf8EncodeChar c := by
  by_cases hleads : ∃ tests value, Leads lead tests value
  · obtain ⟨tests, value, hlead⟩ := hleads
    have htake := passes_take_passing tests rest
    have hpartial : passing tests rest ≠ tests.length := by
      intro hall
      rw [hall, List.take_length] at htake
      refine h (assemble value (rest.take tests.length)) ⟨rest.drop tests.length, ?_⟩
      rw [utf8EncodeChar_assemble hlead htake, List.cons_append, List.take_append_drop]
    rw [next_of_leads hlead, if_neg hpartial]
    refine ⟨rfl, .inr (exists_prefix_iff.2 ⟨tests, value, hlead, ?_⟩), ?_⟩
    · rwa [List.length_take_of_le (passing_le_right tests rest)]
    · rintro passed more rfl hlt hc
      obtain ⟨tests', value', hlead', hpass⟩ := exists_prefix_iff.1 hc
      obtain rfl := hlead'.tests_unique hlead
      have hle := length_le_passing more hpass
      simp only at hlt
      omega
  · rw [next_of_not_leads fun tests value hlead => hleads ⟨tests, value, hlead⟩]
    refine ⟨rfl, .inl rfl, fun passed more _ _ hc => ?_⟩
    obtain ⟨tests, value, hlead, -⟩ := exists_prefix_iff.1 hc
    exact hleads ⟨tests, value, hlead⟩

def StartsFresh (bytes : List UInt8) : Prop := ∀ b ∈ bytes.head?, isContinuation b = false

theorem next_append (rest : List UInt8) {bytes : List UInt8} (h : StartsFresh bytes) :
    next lead (rest ++ bytes) = next lead rest := by
  by_cases hleads : ∃ tests value, Leads lead tests value
  · obtain ⟨tests, value, hlead⟩ := hleads
    have hpassing : passing tests (rest ++ bytes) = passing tests rest :=
      passing_append fun test ht b hb => by
        have hb := h b hb
        contrapose! hb
        simpa using hlead.isContinuation_of_test ht (by simpa using hb)
    rw [next_of_leads hlead, next_of_leads hlead, hpassing]
    by_cases hall : passing tests rest = tests.length
    · have hle := passing_le_right tests rest
      rw [List.take_append_of_le_length (by omega)]
    · rw [if_neg hall, if_neg hall]
  · have hnone := fun tests value hlead => hleads ⟨tests, value, hlead⟩
    rw [next_of_not_leads hnone, next_of_not_leads hnone]

theorem next_snd_le (lead : UInt8) (rest : List UInt8) : (next lead rest).2 ≤ rest.length := by
  by_cases hleads : ∃ tests value, Leads lead tests value
  · obtain ⟨tests, value, hlead⟩ := hleads
    rw [next_of_leads hlead]
    exact passing_le_right tests rest
  · rw [next_of_not_leads fun tests value hlead => hleads ⟨tests, value, hlead⟩]
    exact Nat.zero_le _

end

theorem decode_cons (lead : UInt8) (rest : List UInt8) :
    decode (lead :: rest) =
      (next lead rest).1 :: decode (rest.drop (next lead rest).2) := by
  rw [decode]

/-- Bytes are decoded apart from those before them, unless the first of them continues a
character. -/
theorem decode_append (a : List UInt8) {b : List UInt8} (h : StartsFresh b) :
    decode (a ++ b) = decode a ++ decode b := by
  fun_induction decode a with
  | case1 => rfl
  | case2 lead rest c taken hnext ih =>
    have hc : (next lead rest).1 = c := by rw [hnext]
    have htaken : (next lead rest).2 = taken := by rw [hnext]
    have hle := next_snd_le lead rest
    rw [List.cons_append, decode_cons, next_append rest h, hc, htaken,
      List.drop_append_of_le_length (by omega), ih, List.cons_append]

theorem decode_utf8EncodeChar_append (c : Char) (rest : List UInt8) :
    decode (String.utf8EncodeChar c ++ rest) = c :: decode rest := by
  obtain ⟨lead, tail, h⟩ := List.exists_cons_of_ne_nil (String.utf8EncodeChar_ne_nil (c := c))
  rw [h, List.cons_append, decode_cons, next_of_utf8EncodeChar h, List.drop_left]

theorem decode_bytes (t : Text) : decode t.bytes = t := by
  induction t with
  | nil => simp [Text.bytes, decode]
  | cons c t ih =>
    have hbytes : Text.bytes (c :: t) = String.utf8EncodeChar c ++ Text.bytes t := rfl
    rw [hbytes, decode_utf8EncodeChar_append, ih]

theorem decode_ascii_cons {c : Char} (hc : c.toNat ≤ 0x7F) (rest : List UInt8) :
    decode (UInt8.ofNat c.toNat :: rest) = c :: decode rest := by
  have h := decode_utf8EncodeChar_append c rest
  rwa [utf8EncodeChar_one hc] at h

theorem lead_of_next_ascii {lead : UInt8} {rest : List UInt8}
    (h : (next lead rest).1.toNat ≤ 0x7F) : lead = UInt8.ofNat (next lead rest).1.toNat := by
  by_cases hform : ∃ c, String.utf8EncodeChar c <+: lead :: rest
  · obtain ⟨c, more, hc⟩ := hform
    obtain ⟨lead', tail, hlead'⟩ :=
      List.exists_cons_of_ne_nil (String.utf8EncodeChar_ne_nil (c := c))
    rw [hlead', List.cons_append] at hc
    obtain ⟨rfl, rfl⟩ := List.cons.inj hc
    rw [next_of_utf8EncodeChar hlead'] at h ⊢
    rw [utf8EncodeChar_one h] at hlead'
    exact (List.cons.inj hlead').1.symm
  · obtain ⟨hreplaced, -⟩ := next_of_forall_not_prefix fun c hc => hform ⟨c, hc⟩
    rw [hreplaced] at h
    exact absurd h (by decide)

theorem mem_of_mem_decode_ascii {c : Char} (hc : c.toNat ≤ 0x7F) {bytes : List UInt8}
    (h : c ∈ decode bytes) : UInt8.ofNat c.toNat ∈ bytes := by
  fun_induction decode bytes with
  | case1 => cases h
  | case2 lead rest d taken hnext ih =>
    rcases List.mem_cons.1 h with rfl | h
    · have hd : (next lead rest).1 = c := by rw [hnext]
      have hlead := lead_of_next_ascii (hd ▸ hc)
      rw [hd] at hlead
      rw [← hlead]
      exact List.mem_cons_self
    · exact List.mem_cons_of_mem _ (List.mem_of_mem_drop (ih h))

theorem startsFresh_ascii_cons {c : Char} (hc : c.toNat ≤ 0x7F) (rest : List UInt8) :
    StartsFresh (UInt8.ofNat c.toNat :: rest) := by
  rintro b ⟨⟩
  rw [Bool.eq_false_iff, ne_eq, isContinuation_iff, UInt8.toNat_ofNat']
  omega

theorem head?_bytes_iff {c : Char} (hc : c.toNat ≤ 0x7F) {t : Text} :
    t.bytes.head? = some (UInt8.ofNat c.toNat) ↔ t.head? = some c := by
  constructor
  · intro h
    obtain ⟨rest, hbytes⟩ := List.head?_eq_some_iff.1 h
    rw [← decode_bytes t, hbytes, decode_ascii_cons hc, List.head?_cons]
  · intro h
    obtain ⟨t, rfl⟩ := List.head?_eq_some_iff.1 h
    simp [Text.bytes, utf8EncodeChar_one hc]

theorem getLast?_bytes_iff {c : Char} (hc : c.toNat ≤ 0x7F) {t : Text} :
    t.bytes.getLast? = some (UInt8.ofNat c.toNat) ↔ t.getLast? = some c := by
  constructor
  · intro h
    obtain ⟨before, hbytes⟩ := List.getLast?_eq_some_iff.1 h
    rw [← decode_bytes t, hbytes, decode_append _ (startsFresh_ascii_cons hc []),
      decode_ascii_cons hc]
    simp [decode]
  · intro h
    obtain ⟨t, rfl⟩ := List.getLast?_eq_some_iff.1 h
    simp [Text.bytes, utf8EncodeChar_one hc]

end SourceWindow.Utf8
