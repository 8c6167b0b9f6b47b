import EntityCatalog.Record
import EntityCatalog.Proofs.Bytes.Word

/-!
# Reading stored records back

A record reads back from its bytes, whatever follows them, when the length of its payload is a word,
as it is for every payload that is held in memory. Reading accepts nothing else, and it fails exactly
when the two fields or the payload they announce are not all there.
-/

namespace EntityCatalog

/-- Bytes whose length is a word, as is every sequence of bytes held in memory. -/
def Bytes.Fits (bytes : Bytes) : Prop := bytes.length < UInt64.size

instance (bytes : Bytes) : Decidable bytes.Fits := inferInstanceAs (Decidable (_ < _))

namespace Record

/-- Splitting off as many bytes as the front has gives it and the rest. -/
theorem splitFront?_append (front rest : Bytes) :
    splitFront? front.length (front ++ rest) = some (front, rest) := by
  have hle : front.length ≤ (front ++ rest).length := by
    rw [List.length_append]
    exact Nat.le_add_right _ _
  rw [splitFront?, if_pos hle, List.take_left, List.drop_left]

/-- Bytes split into a front of the given length and the rest of them. -/
theorem splitFront?_eq_some_iff (count : Nat) (bytes front rest : Bytes) :
    splitFront? count bytes = some (front, rest) ↔
      front.length = count ∧ bytes = front ++ rest := by
  constructor
  · intro h
    rw [splitFront?] at h
    split at h
    · rename_i hle
      obtain ⟨rfl, rfl⟩ := Prod.mk.inj (Option.some.inj h)
      exact ⟨List.length_take_of_le hle, (List.take_append_drop count bytes).symm⟩
    · exact absurd h (by simp)
  · rintro ⟨rfl, rfl⟩
    exact splitFront?_append front rest

/-- Only bytes that are too few cannot be split. -/
theorem splitFront?_eq_none_iff (count : Nat) (bytes : Bytes) :
    splitFront? count bytes = none ↔ bytes.length < count := by
  simp [splitFront?]

/-- A field is split off by its width. -/
theorem splitFront?_littleEndian (n : Nat) (rest : Bytes) :
    splitFront? wordWidth (littleEndian wordWidth n ++ rest) =
      some (littleEndian wordWidth n, rest) := by
  have hsplit := splitFront?_append (littleEndian wordWidth n) rest
  rwa [littleEndian_length] at hsplit

/-- A number below `2 ^ 64` is read back from its eight bytes. -/
theorem ofLittleEndian_word {n : Nat} (h : n < UInt64.size) :
    ofLittleEndian (littleEndian wordWidth n) = n := by
  rw [ofLittleEndian_littleEndian]
  exact Nat.mod_eq_of_lt h

/-- What a field holds is a word. -/
theorem ofLittleEndian_field_lt {field : Bytes} (h : field.length = wordWidth) :
    ofLittleEndian field < UInt64.size := by
  have hlt := ofLittleEndian_lt field
  rwa [h] at hlt

/-- A field is written back as it was. -/
theorem littleEndian_field {field : Bytes} (h : field.length = wordWidth) :
    littleEndian wordWidth (ofLittleEndian field) = field := by
  have hbytes := littleEndian_ofLittleEndian field
  rwa [h] at hbytes

/-- A record reads back from its bytes, whatever follows them. -/
theorem decode?_encode_append (record : Record) (h : record.payload.Fits) (trailing : Bytes) :
    decode? (record.encode ++ trailing) = some record := by
  have hversion : ofLittleEndian (littleEndian wordWidth record.version.toNat) =
      record.version.toNat := ofLittleEndian_word record.version.toNat_lt
  have hlength : ofLittleEndian (littleEndian wordWidth record.payload.length) =
      record.payload.length := ofLittleEndian_word h
  simp only [decode?, encode, List.append_assoc, splitFront?_littleEndian, hlength,
    splitFront?_append, hversion, UInt64.ofNat_toNat, Option.bind_eq_bind, Option.bind_some,
    Option.pure_def]

/-- A record reads back from its bytes. -/
theorem decode?_encode (record : Record) (h : record.payload.Fits) :
    decode? record.encode = some record := by
  have happend := decode?_encode_append record h []
  rwa [List.append_nil] at happend

/-- A record can be told from its bytes. -/
theorem encode_injective {a b : Record} (h : a.encode = b.encode) : a = b := by
  have hlength (n m : Nat) : (littleEndian wordWidth n).length = (littleEndian wordWidth m).length := by
    rw [littleEndian_length, littleEndian_length]
  obtain ⟨hfront, hrest⟩ := List.append_inj h (hlength _ _)
  obtain ⟨-, hpayload⟩ := List.append_inj hrest (hlength _ _)
  have hversion := congrArg ofLittleEndian hfront
  rw [ofLittleEndian_word a.version.toNat_lt, ofLittleEndian_word b.version.toNat_lt] at hversion
  obtain ⟨version, payload⟩ := a
  obtain ⟨version', payload'⟩ := b
  obtain rfl : version = version' := UInt64.toNat_inj.mp hversion
  obtain rfl : payload = payload' := hpayload
  rfl

/-- What is decoded stands encoded at the front of the bytes. -/
theorem append_of_decode? {bytes : Bytes} {record : Record} (h : decode? bytes = some record) :
    record.payload.Fits ∧ ∃ trailing, bytes = record.encode ++ trailing := by
  rw [decode?] at h
  obtain ⟨⟨version, afterVersion⟩, hversion, h⟩ := Option.bind_eq_some_iff.mp h
  obtain ⟨⟨length, afterLength⟩, hlength, h⟩ := Option.bind_eq_some_iff.mp h
  obtain ⟨⟨payload, trailing⟩, hpayload, h⟩ := Option.bind_eq_some_iff.mp h
  obtain rfl := Option.some.inj h
  obtain ⟨hversionWidth, hbytes⟩ := (splitFront?_eq_some_iff _ _ _ _).mp hversion
  obtain ⟨hlengthWidth, hafterVersion⟩ := (splitFront?_eq_some_iff _ _ _ _).mp hlength
  obtain ⟨hpayloadLength, hafterLength⟩ := (splitFront?_eq_some_iff _ _ _ _).mp hpayload
  have hword : (UInt64.ofNat (ofLittleEndian version)).toNat = ofLittleEndian version :=
    UInt64.toNat_ofNat_of_lt (ofLittleEndian_field_lt hversionWidth)
  have hfits : payload.Fits := by
    rw [Bytes.Fits, hpayloadLength]
    exact ofLittleEndian_field_lt hlengthWidth
  refine ⟨hfits, trailing, ?_⟩
  rw [encode, hword, hpayloadLength, littleEndian_field hversionWidth, littleEndian_field hlengthWidth,
    List.append_assoc, List.append_assoc, ← hafterLength, ← hafterVersion, ← hbytes]

/-- Decoding finds exactly the records whose encoding stands at the front of the bytes. -/
theorem decode?_eq_some_iff (bytes : Bytes) (record : Record) :
    decode? bytes = some record ↔
      record.payload.Fits ∧ ∃ trailing, bytes = record.encode ++ trailing := by
  refine ⟨append_of_decode?, ?_⟩
  rintro ⟨hfits, trailing, rfl⟩
  exact decode?_encode_append record hfits trailing

/-- The length that the second field of some bytes announces for the payload. -/
def announced (bytes : Bytes) : Nat := ofLittleEndian ((bytes.drop wordWidth).take wordWidth)

/-- Nothing is decoded exactly when a field is cut short or fewer bytes are left than announced. -/
theorem decode?_eq_none_iff (bytes : Bytes) :
    decode? bytes = none ↔
      bytes.length < 2 * wordWidth ∨ bytes.length - 2 * wordWidth < announced bytes := by
  have htwo : 2 * wordWidth = wordWidth + wordWidth := Nat.two_mul wordWidth
  rw [decode?]
  cases hversion : splitFront? wordWidth bytes with
  | none =>
    rw [splitFront?_eq_none_iff] at hversion
    simp only [Option.bind_eq_bind, Option.bind_none, true_iff]
    exact Or.inl (by omega)
  | some fields =>
    obtain ⟨version, afterVersion⟩ := fields
    obtain ⟨hversionWidth, rfl⟩ := (splitFront?_eq_some_iff _ _ _ _).mp hversion
    simp only [Option.bind_eq_bind, Option.bind_some, List.length_append, hversionWidth]
    cases hlength : splitFront? wordWidth afterVersion with
    | none =>
      rw [splitFront?_eq_none_iff] at hlength
      simp only [Option.bind_none, true_iff]
      exact Or.inl (by omega)
    | some fields =>
      obtain ⟨length, afterLength⟩ := fields
      obtain ⟨hlengthWidth, rfl⟩ := (splitFront?_eq_some_iff _ _ _ _).mp hlength
      have hannounced : announced (version ++ (length ++ afterLength)) = ofLittleEndian length := by
        rw [announced, ← hversionWidth, List.drop_left, hversionWidth, ← hlengthWidth, List.take_left]
      rw [hannounced]
      simp only [Option.bind_some, List.length_append, hlengthWidth]
      cases hpayload : splitFront? (ofLittleEndian length) afterLength with
      | none =>
        rw [splitFront?_eq_none_iff] at hpayload
        simp only [Option.bind_none, true_iff]
        exact Or.inr (by omega)
      | some parts =>
        obtain ⟨payload, trailing⟩ := parts
        obtain ⟨hpayloadLength, rfl⟩ := (splitFront?_eq_some_iff _ _ _ _).mp hpayload
        simp only [Option.bind_some, Option.pure_def, reduceCtorEq, false_iff, List.length_append]
        omega

/-- A record is read exactly from the bytes that decode to it. -/
theorem read_eq_ok_iff (bytes : Bytes) (record : Record) :
    read bytes = .ok record ↔ decode? bytes = some record := by
  rw [read]
  cases decode? bytes <;> simp

/-- A record at the front of some bytes is what they read as. -/
theorem read_eq_ok {bytes : Bytes} {record : Record} (h : decode? bytes = some record) :
    read bytes = .ok record :=
  (read_eq_ok_iff bytes record).mpr h

/-- Reading fails only because the bytes end early. -/
theorem read_eq_error_iff (bytes : Bytes) (fault : Error) :
    read bytes = .error fault ↔ fault = .corruptValue .truncated ∧ decode? bytes = none := by
  rw [read]
  cases decode? bytes <;> simp [eq_comm]

/-- The encoding of a record is two fields and the payload. -/
theorem encode_length (record : Record) :
    record.encode.length = 2 * wordWidth + record.payload.length := by
  simp only [encode, List.length_append, littleEndian_length]
  omega

/-- The first field of an encoding holds the base-256 digits of the version, lowest first, the second
those of the length of the payload, and the payload follows. -/
theorem encode_layout (record : Record) :
    (∀ i < wordWidth,
      record.encode[i]? = some (UInt8.ofNat (record.version.toNat / 256 ^ i)) ∧
      record.encode[wordWidth + i]? = some (UInt8.ofNat (record.payload.length / 256 ^ i))) ∧
    record.encode.drop (2 * wordWidth) = record.payload := by
  have hwidth (n : Nat) : (littleEndian wordWidth n).length = wordWidth := littleEndian_length _ _
  refine ⟨fun i hi => ⟨?_, ?_⟩, ?_⟩
  · rw [encode, List.getElem?_append_left (by rwa [hwidth]), littleEndian_getElem? _ hi]
  · rw [encode, List.getElem?_append_right (by rw [hwidth]; exact Nat.le_add_right _ _), hwidth,
      Nat.add_sub_cancel_left, List.getElem?_append_left (by rwa [hwidth]), littleEndian_getElem? _ hi]
  · rw [encode, ← List.append_assoc]
    apply List.drop_left'
    rw [List.length_append, hwidth, hwidth, Nat.two_mul]

/-- No encoding of a record is a proper front of another. -/
theorem eq_of_encode_prefix {record other : Record} (hfits : other.payload.Fits)
    (h : record.encode <+: other.encode) : record = other := by
  obtain ⟨trailing, htrailing⟩ := h
  have hle : record.payload.length ≤ other.payload.length := by
    have hlength := congrArg List.length htrailing
    rw [List.length_append, encode_length, encode_length] at hlength
    omega
  have hrecord := decode?_encode_append record (Nat.lt_of_le_of_lt hle hfits) trailing
  rw [htrailing, decode?_encode other hfits] at hrecord
  exact (Option.some.inj hrecord).symm

/-- Reading is exact. An encoding is two fields of eight bytes, lowest digits first, and the payload.
Some bytes read as a record exactly when its encoding stands at their front, whatever follows it, so
encodings read back, differ for different records, and are no proper fronts of each other. Reading
fails, always in the same way, exactly when the fields or the payload that they announce are cut short.

That the length of a payload is a word holds of every payload that is held in memory. -/
theorem read_exact (bytes : Bytes) (record other : Record) :
    ((∀ i < wordWidth,
        record.encode[i]? = some (UInt8.ofNat (record.version.toNat / 256 ^ i)) ∧
        record.encode[wordWidth + i]? = some (UInt8.ofNat (record.payload.length / 256 ^ i))) ∧
      record.encode.drop (2 * wordWidth) = record.payload) ∧
    (read bytes = .ok record ↔
      record.payload.Fits ∧ ∃ trailing, bytes = record.encode ++ trailing) ∧
    (record.payload.Fits → read record.encode = .ok record) ∧
    (record.encode = other.encode → record = other) ∧
    (other.payload.Fits → record.encode <+: other.encode → record = other) ∧
    ((∃ fault, read bytes = .error fault) ↔
      bytes.length < 2 * wordWidth ∨ bytes.length - 2 * wordWidth < announced bytes) ∧
    ∀ fault, read bytes = .error fault → fault = .corruptValue .truncated := by
  refine ⟨record.encode_layout, ?_, fun hfits => ?_, encode_injective, eq_of_encode_prefix, ?_,
    fun fault hfault => ((read_eq_error_iff bytes fault).mp hfault).1⟩
  · rw [read_eq_ok_iff, decode?_eq_some_iff]
  · rw [read_eq_ok_iff]
    exact decode?_encode record hfits
  · rw [← decode?_eq_none_iff]
    constructor
    · rintro ⟨fault, hfault⟩
      exact ((read_eq_error_iff bytes fault).mp hfault).2
    · intro hnone
      exact ⟨_, (read_eq_error_iff bytes _).mpr ⟨rfl, hnone⟩⟩

/-- A record of the greatest version. -/
def newest : Record := ⟨18446744073709551615, [0x2f, 0xff]⟩

/-- The same version with the front of its payload. -/
def curtailed : Record := ⟨18446744073709551615, [0x2f]⟩

/-- The fields of a record that announces the longest payload and ends after one byte. -/
def boastful : Bytes := littleEndian wordWidth 7 ++ (littleEndian wordWidth 18446744073709551615 ++ [1])

/-- A record is read whatever follows it, and not from fewer bytes than it announces. -/
theorem read_exact_newest :
    newest.payload.Fits ∧ read newest.encode = .ok newest ∧
      read (newest.encode ++ [7, 7]) = .ok newest ∧ ¬ curtailed.encode <+: newest.encode ∧
      read boastful = .error (.corruptValue .truncated) := by
  have hfits : newest.payload.Fits := by decide
  obtain ⟨-, htrailing, hback, -⟩ := read_exact (newest.encode ++ [7, 7]) newest newest
  obtain ⟨-, -, -, -, hapart, -⟩ := read_exact [] curtailed newest
  obtain ⟨-, -, -, -, -, hfails, hfault⟩ := read_exact boastful newest newest
  obtain ⟨fault, hboastful⟩ := hfails.mpr (Or.inr (by decide))
  obtain rfl := hfault fault hboastful
  refine ⟨hfits, hback hfits, htrailing.mpr ⟨hfits, [7, 7], rfl⟩, fun hfront => ?_, hboastful⟩
  exact absurd (hapart hfits hfront) (by decide)

end Record

end EntityCatalog
