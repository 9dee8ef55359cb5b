import TraceMath.Opcode
import TraceMath.Proofs.Lookup

/-!
# Names of opcodes, in any case

A text is the name of an opcode if the two have equally many characters, and differ in the case of
ASCII letters only. Nothing else is read as a name: no text with a character beyond ASCII, and none
with white space in it.

* `SameLetter` and `SameText` say this without the lowered text; `sameText_iff` says that texts are
  the same in this way if and only if they are lowered to one text.
* `Opcode.ofName_eq_ok_iff` and `Opcode.ofName_eq_error_iff`: the texts that are read, and those
  that are refused.
-/

namespace TraceMath

/-! ## Texts up to case -/

/-- The characters are equal, or they are the upper case and the lower case of an ASCII letter. -/
def SameLetter (c d : Char) : Prop :=
  c = d ∨ ('A' ≤ c ∧ c ≤ 'Z' ∧ d.toNat = c.toNat + 32) ∨
    ('A' ≤ d ∧ d ≤ 'Z' ∧ c.toNat = d.toNat + 32)

instance (c d : Char) : Decidable (SameLetter c d) := inferInstanceAs (Decidable (_ ∨ _))

/-- The texts have equally many characters, and those at one place are the same up to ASCII case. -/
structure SameText (s t : String) : Prop where
  length_eq : s.length = t.length
  sameLetter (i : ℕ) (hs : i < s.toList.length) (ht : i < t.toList.length) :
    SameLetter s.toList[i] t.toList[i]

theorem le_iff_toNat_le (c d : Char) : c ≤ d ↔ c.toNat ≤ d.toNat := UInt32.le_iff_toNat_le

theorem toNat_toLower (c : Char) :
    c.toLower.toNat = if 'A' ≤ c ∧ c ≤ 'Z' then c.toNat + 32 else c.toNat := by
  by_cases h : 'A' ≤ c ∧ c ≤ 'Z'
  · have hlower : c.toLower = _ := dif_pos h
    have hle : c.val.toNat ≤ 90 := UInt32.le_iff_toNat_le.mp h.2
    rw [if_pos h, hlower]
    change (c.val + 32).toNat = c.val.toNat + 32
    rw [UInt32.toNat_add]
    exact Nat.mod_eq_of_lt (show c.val.toNat + 32 < 2 ^ 32 by omega)
  · have hlower : c.toLower = c := dif_neg h
    rw [if_neg h, hlower]

theorem sameLetter_iff (c d : Char) : SameLetter c d ↔ c.toLower = d.toLower := by
  have hA : 'A'.toNat = 65 := rfl
  have hZ : 'Z'.toNat = 90 := rfl
  rw [← Char.toNat_inj, toNat_toLower, toNat_toLower, SameLetter, ← Char.toNat_inj]
  simp only [le_iff_toNat_le, hA, hZ]
  split <;> split <;> omega

theorem sameText_iff_map_toLower (s t : String) :
    SameText s t ↔ s.toList.map Char.toLower = t.toList.map Char.toLower := by
  rw [List.ext_getElem_iff]
  simp only [List.getElem_map, List.length_map, String.length_toList, ← sameLetter_iff]
  exact ⟨fun h => ⟨h.length_eq, h.sameLetter⟩, fun h => ⟨h.1, h.2⟩⟩

@[simp] theorem toList_asciiLower (s : String) :
    (Opcode.asciiLower s).toList = s.toList.map Char.toLower := String.toList_map

/-- **Texts that differ in case only** are those that are lowered to one text. -/
theorem sameText_iff (s t : String) :
    SameText s t ↔ Opcode.asciiLower s = Opcode.asciiLower t := by
  rw [sameText_iff_map_toLower, ← String.toList_inj, toList_asciiLower, toList_asciiLower]

/-- White space, by the Unicode property. -/
def isWhiteSpace (c : Char) : Bool :=
  [(0x9, 0xd), (0x20, 0x20), (0x85, 0x85), (0xa0, 0xa0), (0x1680, 0x1680), (0x2000, 0x200a),
    (0x2028, 0x2029), (0x202f, 0x202f), (0x205f, 0x205f), (0x3000, 0x3000)].any fun range =>
      range.1 ≤ c.toNat && c.toNat ≤ range.2

namespace Opcode

/-! ## Reading a name -/

theorem names_nodup : (all.map name).Nodup := by decide

@[simp] theorem asciiLower_name (op : Opcode) : asciiLower op.name = op.name := by
  rw [← String.toList_inj, toList_asciiLower]
  cases op <;> decide

/-- A text is read as an opcode if it is the opcode's name when it is lowered. -/
theorem find?_lowered_eq_some_iff (s : String) (op : Opcode) :
    all.find? (·.name == asciiLower s) = some op ↔ SameText s op.name := by
  rw [find?_key_eq_some_iff names_nodup, sameText_iff, asciiLower_name]
  exact ⟨fun h => h.2.symm, fun h => ⟨mem_all op, h.symm⟩⟩

theorem ofName_eq_ok_iff (s : String) (op : Opcode) :
    ofName s = .ok op ↔ SameText s op.name := by
  rw [← find?_lowered_eq_some_iff, ofName]
  split
  · next h => rw [h, Except.ok.injEq, Option.some.injEq]
  · next h => simp [h]

theorem ofName_eq_error_iff (s : String) (e : OpcodeError) :
    ofName s = .error e ↔ (∀ op : Opcode, ¬SameText s op.name) ∧ e = .unknownName s := by
  simp only [← ofName_eq_ok_iff]
  rw [ofName]
  split
  · simp
  · simp [eq_comm]

@[simp] theorem ofName_name (op : Opcode) : ofName op.name = .ok op :=
  (ofName_eq_ok_iff op.name op).mpr ((sameText_iff _ _).mpr rfl)

theorem eq_of_sameText {s : String} {op op' : Opcode} (h : SameText s op.name)
    (h' : SameText s op'.name) : op = op' := by
  rw [← ofName_eq_ok_iff] at h h'
  exact Except.ok.inj (h.symm.trans h')

/-- Any list that has every opcode can be searched, whatever its order is. -/
theorem find?_lowered_of_mem {l : List Opcode} (h : ∀ op, op ∈ l) (s : String) :
    l.find? (·.name == asciiLower s) = (ofName s).toOption := by
  cases hs : ofName s with
  | error e =>
    have hnone := ((ofName_eq_error_iff s e).mp hs).1
    refine List.find?_eq_none.mpr fun op _ hop => hnone op ?_
    rw [sameText_iff, asciiLower_name]
    exact (eq_of_beq hop).symm
  | ok op =>
    have hop := (ofName_eq_ok_iff s op).mp hs
    have hlowered := (sameText_iff _ _).mp hop
    rw [asciiLower_name] at hlowered
    have hsome : (l.find? (·.name == asciiLower s)).isSome :=
      List.find?_isSome.mpr ⟨op, h op, beq_iff_eq.mpr hlowered.symm⟩
    obtain ⟨op', hop'⟩ := Option.isSome_iff_exists.mp hsome
    have hname : op'.name = asciiLower s := beq_iff_eq.mp (List.find?_some hop' :)
    rw [hop', name_inj (hname.trans hlowered), Except.toOption]

theorem toOption_ofName_congr {s t : String} (h : SameText s t) :
    (ofName s).toOption = (ofName t).toOption := by
  rw [← find?_lowered_of_mem mem_all, ← find?_lowered_of_mem mem_all, (sameText_iff s t).mp h]

/-! ## Characters of a name -/

/-- An ASCII letter or digit. -/
def isNameCharacter (c : Char) : Bool :=
  '0' ≤ c && c ≤ '9' || 'A' ≤ c && c ≤ 'Z' || 'a' ≤ c && c ≤ 'z'

theorem isNameCharacter_iff (c : Char) : isNameCharacter c ↔
    (48 ≤ c.toNat ∧ c.toNat ≤ 57 ∨ 65 ≤ c.toNat ∧ c.toNat ≤ 90) ∨
      97 ≤ c.toNat ∧ c.toNat ≤ 122 := by
  simp only [isNameCharacter, Bool.or_eq_true, Bool.and_eq_true, decide_eq_true_iff]
  exact Iff.rfl

theorem isNameCharacter_of_sameLetter {c d : Char} (h : SameLetter c d)
    (hd : isNameCharacter d) : isNameCharacter c := by
  have hA : 'A'.toNat = 65 := rfl
  have hZ : 'Z'.toNat = 90 := rfl
  rw [isNameCharacter_iff] at hd ⊢
  rw [SameLetter, ← Char.toNat_inj] at h
  simp only [le_iff_toNat_le, hA, hZ] at h
  omega

theorem all_isNameCharacter_name (op : Opcode) : op.name.toList.all isNameCharacter = true := by
  cases op <;> decide

/-- An opcode is spelled with ASCII letters and digits. -/
theorem isNameCharacter_of_mem {s : String} {op : Opcode} (h : SameText s op.name) :
    ∀ c ∈ s.toList, isNameCharacter c := by
  intro c hc
  obtain ⟨i, hi, rfl⟩ := List.getElem_of_mem hc
  have hi' : i < op.name.toList.length := by
    rwa [String.length_toList, ← h.length_eq, ← String.length_toList]
  exact isNameCharacter_of_sameLetter (h.sameLetter i hi hi')
    (List.all_eq_true.mp op.all_isNameCharacter_name _ (List.getElem_mem hi'))

/-- A text with a character beyond ASCII, or with white space, is refused. -/
theorem ofName_of_mem {s : String} {c : Char} (hc : c ∈ s.toList)
    (h : 127 < c.toNat ∨ isWhiteSpace c = true) : ofName s = .error (.unknownName s) := by
  refine (ofName_eq_error_iff s _).mpr ⟨fun op hop => ?_, rfl⟩
  have hname := (isNameCharacter_iff c).mp (isNameCharacter_of_mem hop c hc)
  rcases h with h | h
  · omega
  · simp only [isWhiteSpace, List.any_cons, List.any_nil, Bool.or_false, Bool.or_eq_true,
      Bool.and_eq_true, decide_eq_true_iff] at h
    omega

end Opcode

/-- **Which texts are names of opcodes.** A text is read as an opcode if and only if it is the
opcode's name up to ASCII case, character by character; of no two opcodes it is the name, so the
order of the search makes no difference. Any other text is refused, and the error holds the text as
it was. So texts that differ in case only are read alike, a text with a character beyond ASCII or
with white space is refused, and every opcode is read back from its name and from its tag. -/
theorem names_are_read_up_to_case (s : String) :
    (∀ op, Opcode.ofName s = .ok op ↔ SameText s op.name) ∧
    (∀ op op' : Opcode, SameText s op.name → SameText s op'.name → op = op') ∧
    (∀ l : List Opcode, (∀ op, op ∈ l) →
      l.find? (·.name == Opcode.asciiLower s) = (Opcode.ofName s).toOption) ∧
    (∀ e, Opcode.ofName s = .error e ↔
      (∀ op : Opcode, ¬SameText s op.name) ∧ e = .unknownName s) ∧
    (∀ t, SameText s t → (Opcode.ofName s).toOption = (Opcode.ofName t).toOption) ∧
    (∀ c ∈ s.toList, 127 < c.toNat ∨ isWhiteSpace c = true →
      Opcode.ofName s = .error (.unknownName s)) ∧
    ∀ op, Opcode.ofName op.name = .ok op ∧ Opcode.ofWord op.tag = .ok op := by
  exact ⟨Opcode.ofName_eq_ok_iff s, fun op op' => Opcode.eq_of_sameText,
    fun l hl => Opcode.find?_lowered_of_mem hl s, Opcode.ofName_eq_error_iff s,
    fun t => Opcode.toOption_ofName_congr, fun c => Opcode.ofName_of_mem,
    fun op => ⟨Opcode.ofName_name op, Opcode.ofWord_tag op⟩⟩

/-- A name in mixed case, found in the reversed list as well and spelled in another case; and a name
with a character beyond ASCII in front, and one with a space behind. -/
theorem names_are_read_up_to_case_log10 :
    (SameText "LoG10" Opcode.log10.name ∧ Opcode.ofName "LoG10" = .ok .log10) ∧
    ((∀ op, op ∈ Opcode.all.reverse) ∧
      Opcode.all.reverse.find? (·.name == Opcode.asciiLower "LoG10") = some .log10) ∧
    (SameText "LoG10" "lOg10" ∧ (Opcode.ofName "lOg10").toOption = some .log10) ∧
    ('\u017f' ∈ "\u017fin".toList ∧ Opcode.ofName "\u017fin" = .error (.unknownName "\u017fin")) ∧
    (isWhiteSpace ' ' = true ∧ Opcode.ofName "log " = .error (.unknownName "log ")) := by
  have hname : SameText "LoG10" Opcode.log10.name := (sameText_iff_map_toLower _ _).mpr (by decide)
  have hcase : SameText "LoG10" "lOg10" := (sameText_iff_map_toLower _ _).mpr (by decide)
  have hall : ∀ op, op ∈ Opcode.all.reverse := fun op => List.mem_reverse.mpr op.mem_all
  have hlong : '\u017f' ∈ "\u017fin".toList := by decide
  have hspace : ' ' ∈ "log ".toList := by decide
  have hwhite : isWhiteSpace ' ' = true := by decide
  obtain ⟨hok, -, hsearch, -, hsame, -⟩ := names_are_read_up_to_case "LoG10"
  have hread := (hok .log10).mpr hname
  have hfound := hsearch Opcode.all.reverse hall
  have hother := hsame "lOg10" hcase
  rw [hread] at hfound hother
  obtain ⟨-, -, -, -, -, hbeyond, -⟩ := names_are_read_up_to_case "\u017fin"
  obtain ⟨-, -, -, -, -, hbehind, -⟩ := names_are_read_up_to_case "log "
  exact ⟨⟨hname, hread⟩, ⟨hall, hfound⟩, ⟨hcase, hother.symm⟩,
    ⟨hlong, hbeyond _ hlong (.inl (by decide))⟩, ⟨hwhite, hbehind _ hspace (.inr hwhite)⟩⟩

end TraceMath
