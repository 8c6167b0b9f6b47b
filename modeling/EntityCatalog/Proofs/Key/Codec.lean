import EntityCatalog.Key.Basic
import EntityCatalog.Proofs.Bytes.Word

/-!
# Keys and their bytes

Every segment of a key is nine bytes wide, so the bytes of a key determine its kind, its ids and
its shape, whatever bytes the ids hold. A wildcard key is a stem of exactly the concrete keys of
its kind whose ids properly extend its own.
-/

namespace EntityCatalog

/-- Lists of the same length at the front are told apart by width. -/
theorem append_prefix_append_iff {α : Type} {a a' b b' : List α} (h : a.length = a'.length) :
    a ++ b <+: a' ++ b' ↔ a = a' ∧ b <+: b' := by
  constructor
  · rintro ⟨rest, hrest⟩
    rw [List.append_assoc] at hrest
    obtain ⟨hfront, hback⟩ := List.append_inj hrest h
    exact ⟨hfront, rest, hback⟩
  · rintro ⟨rfl, hstem⟩
    exact (List.prefix_append_right_inj a).mpr hstem

/-- A code is that of the kind that is read from it. -/
theorem Kind.code_of_ofCode? {code : Bytes} {kind : Kind} (h : Kind.ofCode? code = some kind) :
    kind.code = code := by
  simpa using List.find?_some h

/-- Different kinds have different codes. -/
theorem Kind.code_injective {a b : Kind} (h : a.code = b.code) : a = b := by
  have hread := Kind.ofCode?_code a
  rw [h, Kind.ofCode?_code] at hread
  exact (Option.some.inj hread).symm

namespace Key

/-- A segment has a fixed width. -/
@[simp] theorem segment_length (id : UInt64) : (segment id).length = segmentWidth := by
  simp [segment, segmentWidth, wordBytes_length, Nat.add_comm]

/-- Different ids have different segments. -/
theorem segment_injective {a b : UInt64} (h : segment a = segment b) : a = b :=
  wordBytes_injective (List.cons.inj h).2

/-- The segments of ids take their width for each id. -/
theorem flatMap_segment_length (ids : List UInt64) :
    (ids.flatMap segment).length = ids.length * segmentWidth := by
  induction ids with
  | nil => exact (Nat.zero_mul _).symm
  | cons id rest ih =>
    rw [List.flatMap_cons, List.length_append, ih, segment_length, List.length_cons,
      Nat.succ_mul, Nat.add_comm]

/-- Ids are known by their segments in a row. -/
theorem flatMap_segment_injective {ids ids' : List UInt64}
    (h : ids.flatMap segment = ids'.flatMap segment) : ids = ids' := by
  induction ids generalizing ids' with
  | nil =>
    cases ids' with
    | nil => rfl
    | cons id' rest' => simp [segment] at h
  | cons id rest ih =>
    cases ids' with
    | nil => simp [segment] at h
    | cons id' rest' =>
      rw [List.flatMap_cons, List.flatMap_cons] at h
      obtain ⟨hid, hrest⟩ := List.append_inj h (by simp)
      rw [segment_injective hid, ih hrest]

/-- Segments followed by a separator start the segments of exactly the proper extensions. -/
theorem flatMap_segment_separator_prefix_iff (ids ids' : List UInt64) :
    ids.flatMap segment ++ [separator] <+: ids'.flatMap segment ↔
      ids <+: ids' ∧ ids.length < ids'.length := by
  induction ids generalizing ids' with
  | nil =>
    cases ids' with
    | nil => simp
    | cons id' rest' => simp [segment, List.cons_prefix_cons]
  | cons id rest ih =>
    cases ids' with
    | nil => simp
    | cons id' rest' =>
      rw [List.flatMap_cons, List.flatMap_cons, List.append_assoc,
        append_prefix_append_iff (by simp), ih, List.cons_prefix_cons]
      simp only [List.length_cons, Nat.add_lt_add_iff_right]
      constructor
      · rintro ⟨hid, hstem, hlength⟩
        exact ⟨⟨segment_injective hid, hstem⟩, hlength⟩
      · rintro ⟨⟨rfl, hstem⟩, hlength⟩
        exact ⟨rfl, hstem, hlength⟩

/-- The length of a key tells its shape. -/
theorem encode_length (key : Key) :
    key.encode.length =
      codeWidth + (key.ids.length * segmentWidth + if key.wildcard then 1 else 0) := by
  obtain ⟨kind, ids, wildcard⟩ := key
  rw [encode, List.length_append, List.length_append, flatMap_segment_length, Kind.code_length]
  cases wildcard <;> rfl

/-- The bytes of a key determine it. -/
theorem encode_injective {a b : Key} (h : a.encode = b.encode) : a = b := by
  have hlength := congrArg List.length h
  rw [encode_length, encode_length] at hlength
  obtain ⟨kind, ids, wildcard⟩ := a
  obtain ⟨kind', ids', wildcard'⟩ := b
  have hcode : kind.code.length = kind'.code.length := rfl
  obtain ⟨hkind, hbody⟩ := List.append_inj h hcode
  have hwild : wildcard = wildcard' := by
    cases wildcard <;> cases wildcard' <;> simp [segmentWidth, wordWidth] at hlength ⊢ <;> omega
  subst hwild
  have hids := flatMap_segment_injective (List.append_cancel_right hbody)
  exact Key.mk.injEq .. ▸ ⟨Kind.code_injective hkind, hids, rfl⟩

/-- The stem of the keys beneath an entity is a wildcard key with the ids of the entity. -/
theorem stemBeneath_encode (kind lower : Kind) (ids : List UInt64) :
    stemBeneath (encode ⟨kind, ids, false⟩) lower = encode ⟨lower, ids, true⟩ := by
  have hcode : kind.code.length = codeWidth := rfl
  simp [stemBeneath, encode, ← hcode]

/-- A wildcard key is a stem of the concrete keys of its kind whose ids properly extend its own. -/
theorem wildcard_prefix_iff (kind kind' : Kind) (ids ids' : List UInt64) :
    encode ⟨kind, ids, true⟩ <+: encode ⟨kind', ids', false⟩ ↔
      kind = kind' ∧ ids <+: ids' ∧ ids.length < ids'.length := by
  simp only [encode, if_true, Bool.false_eq_true, if_false, List.append_nil]
  have hcode : kind.code.length = kind'.code.length := rfl
  rw [append_prefix_append_iff hcode, flatMap_segment_separator_prefix_iff]
  constructor
  · rintro ⟨hkind, hstem⟩
    exact ⟨Kind.code_injective hkind, hstem⟩
  · rintro ⟨rfl, hstem⟩
    exact ⟨rfl, hstem⟩

/-- After its code, a key has a separator or nothing. -/
theorem encode_getElem?_codeWidth (key : Key) :
    key.encode[codeWidth]? = none ∨ key.encode[codeWidth]? = some separator := by
  obtain ⟨kind, ids, wildcard⟩ := key
  have hcode : kind.code.length ≤ codeWidth := Nat.le_refl _
  rw [encode, List.getElem?_append_right hcode]
  cases ids with
  | nil => cases wildcard <;> simp [codeWidth, Kind.code_length]
  | cons id rest => simp [segment, codeWidth, Kind.code_length]

/-- Reading the segments of ids gives the ids back. -/
theorem readSegments_flatMap (ids : List UInt64) :
    readSegments ids.length (ids.flatMap segment) = .ok ids := by
  induction ids with
  | nil => rfl
  | cons id rest ih =>
    have hword : ofBigEndian (wordBytes id) = id.toNat := by
      rw [wordBytes, ofBigEndian_bigEndian]
      exact Nat.mod_eq_of_lt id.toNat_lt
    have hdrop : (wordBytes id ++ rest.flatMap segment).drop wordWidth = rest.flatMap segment := by
      rw [← wordBytes_length id, List.drop_left]
    have htake : (wordBytes id ++ rest.flatMap segment).take wordWidth = wordBytes id := by
      rw [← wordBytes_length id, List.take_left]
    simp only [List.flatMap_cons, segment, List.cons_append, List.length_cons, readSegments,
      if_true]
    rw [hdrop, htake, ih, hword]
    dsimp only
    rw [UInt64.ofNat_toNat]

/-- The body of a key splits into its segments and its shape. -/
theorem splitBody_flatMap (ids : List UInt64) (wildcard : Bool) :
    splitBody (ids.flatMap segment ++ if wildcard then [separator] else []) =
      .ok (ids.flatMap segment, wildcard) := by
  cases wildcard with
  | false =>
    have hlength : (ids.flatMap segment).length % segmentWidth = 0 := by
      rw [flatMap_segment_length, Nat.mul_mod_left]
    rw [if_neg Bool.false_ne_true, List.append_nil, splitBody, if_pos hlength]
  | true =>
    have hlength : (ids.flatMap segment ++ [separator]).length % segmentWidth = 1 := by
      rw [List.length_append, flatMap_segment_length, Nat.mul_comm, Nat.mul_add_mod]
      rfl
    rw [if_pos rfl, splitBody, hlength]
    simp

/-- Reading the bytes of a key with as many ids as its kind has levels gives the key back. -/
theorem decode_encode (key : Key) (depth : Nat) (hdepth : key.kind.depth = some depth)
    (hids : key.ids.length = if key.wildcard then depth else depth + 1) :
    decode key.encode = .ok key := by
  obtain ⟨kind, ids, wildcard⟩ := key
  have hcode : kind.code.length = codeWidth := rfl
  have htake : (encode ⟨kind, ids, wildcard⟩).take codeWidth = kind.code := by
    rw [encode, ← hcode, List.take_left]
  have hdrop : (encode ⟨kind, ids, wildcard⟩).drop codeWidth =
      ids.flatMap segment ++ if wildcard then [separator] else [] := by
    rw [encode, ← hcode, List.drop_left]
  have hlong : ¬ (encode ⟨kind, ids, wildcard⟩).length < codeWidth := by
    rw [encode_length]
    omega
  have hcount : (ids.flatMap segment).length / segmentWidth = ids.length := by
    rw [flatMap_segment_length]
    exact Nat.mul_div_cancel _ (by decide)
  simp only at hdepth hids
  rw [decode, if_neg hlong, htake, hdrop]
  simp only [Kind.ofCode?_code, hdepth, decodeBody, splitBody_flatMap, hcount, hids, ne_eq,
    not_true_eq_false, if_false]
  rw [← hids, readSegments_flatMap]

/-! ## Bytes that read as a key -/

/-- Segments that can be read are those of the ids that are read. -/
theorem flatMap_of_readSegments {count : Nat} {bytes : Bytes} {ids : List UInt64}
    (h : readSegments count bytes = .ok ids) (hlength : bytes.length = count * segmentWidth) :
    bytes = ids.flatMap segment ∧ ids.length = count := by
  induction count generalizing bytes ids with
  | zero =>
    obtain rfl := Except.ok.inj h
    exact ⟨List.eq_nil_of_length_eq_zero (hlength.trans (Nat.zero_mul _)), rfl⟩
  | succ count ih =>
    cases bytes with
    | nil =>
      simp only [List.length_nil, segmentWidth, wordWidth] at hlength
      omega
    | cons mark rest =>
      rw [readSegments] at h
      split at h
      · rename_i hmark
        have hrest : rest.length = wordWidth + count * segmentWidth := by
          rw [List.length_cons, Nat.succ_mul] at hlength
          simp only [segmentWidth] at hlength ⊢
          omega
        cases hread : readSegments count (rest.drop wordWidth) with
        | error fault =>
          rw [hread] at h
          exact absurd h (by simp)
        | ok more =>
          rw [hread] at h
          obtain rfl := Except.ok.inj h
          obtain ⟨hmore, hcount⟩ := ih hread (by rw [List.length_drop, hrest, Nat.add_sub_cancel_left])
          have hword : wordBytes (UInt64.ofNat (ofBigEndian (rest.take wordWidth))) =
              rest.take wordWidth := by
            refine ((word?_eq_some_iff _ _).mp ?_).symm
            rw [word?, if_pos (List.length_take_of_le (by rw [hrest]; exact Nat.le_add_right _ _))]
          refine ⟨?_, by rw [List.length_cons, hcount]⟩
          rw [List.flatMap_cons, segment, hword, ← hmore, List.cons_append, List.take_append_drop,
            hmark]
      · exact absurd h (by simp)

/-- A body that can be split has whole segments and then a separator or nothing. -/
theorem append_of_splitBody {body segments : Bytes} {wildcard : Bool}
    (h : splitBody body = .ok (segments, wildcard)) :
    (body = segments ++ if wildcard then [separator] else []) ∧
      segments.length % segmentWidth = 0 := by
  rw [splitBody] at h
  split at h
  · rename_i hwhole
    obtain ⟨rfl, rfl⟩ := Prod.mk.inj (Except.ok.inj h)
    exact ⟨(List.append_nil _).symm, hwhole⟩
  · split at h
    · rename_i hmore
      obtain ⟨rfl, rfl⟩ := Prod.mk.inj (Except.ok.inj h)
      obtain ⟨front, rfl⟩ := List.getLast?_eq_some_iff.mp hmore.2
      have hlength := hmore.1
      rw [List.length_append, List.length_singleton] at hlength
      rw [List.dropLast_concat]
      refine ⟨rfl, ?_⟩
      simp only [segmentWidth, wordWidth] at hlength ⊢
      omega
    · exact absurd h (by simp)

/-- Segments are refused only for a byte before an id. -/
theorem corruptKey_of_readSegments {count : Nat} {bytes : Bytes} {error : Error}
    (h : readSegments count bytes = .error error) : ∃ fault, error = .corruptKey fault := by
  induction count generalizing bytes with
  | zero => exact absurd h (by simp [readSegments])
  | succ count ih =>
    cases bytes with
    | nil => exact absurd h (by simp [readSegments])
    | cons mark rest =>
      rw [readSegments] at h
      split at h
      · cases hread : readSegments count (rest.drop wordWidth) with
        | ok ids =>
          rw [hread] at h
          exact absurd h (by simp)
        | error fault =>
          rw [hread] at h
          obtain rfl := Except.error.inj h
          exact ih hread
      · exact ⟨_, (Except.error.inj h).symm⟩

/-- A body is refused only for its length or its last byte. -/
theorem corruptKey_of_splitBody {body : Bytes} {error : Error} (h : splitBody body = .error error) :
    ∃ fault, error = .corruptKey fault := by
  rw [splitBody] at h
  split at h
  · exact absurd h (by simp)
  · split at h
    · exact absurd h (by simp)
    · exact ⟨_, (Except.error.inj h).symm⟩

/-- A body that reads as a key has as many ids as the key needs, and nothing else. -/
theorem encode_of_decodeBody {kind : Kind} {depth : Nat} {body : Bytes} {key : Key}
    (h : decodeBody kind depth body = .ok key) :
    key.kind = kind ∧ key.encode = kind.code ++ body ∧
      key.ids.length = if key.wildcard then depth else depth + 1 := by
  rw [decodeBody] at h
  cases hsplit : splitBody body with
  | error fault =>
    rw [hsplit] at h
    exact absurd h (by simp)
  | ok parts =>
    obtain ⟨segments, wildcard⟩ := parts
    obtain ⟨hbody, hwhole⟩ := append_of_splitBody hsplit
    rw [hsplit] at h
    dsimp only at h
    by_cases hexpected : segments.length / segmentWidth = if wildcard then depth else depth + 1
    · rw [if_neg (not_not_intro hexpected)] at h
      cases hread : readSegments (segments.length / segmentWidth) segments with
      | error fault =>
        rw [hread] at h
        exact absurd h (by simp)
      | ok ids =>
        rw [hread] at h
        obtain rfl := Except.ok.inj h
        obtain ⟨hsegments, hcount⟩ := flatMap_of_readSegments hread
          (Nat.div_mul_cancel (Nat.dvd_of_mod_eq_zero hwhole)).symm
        exact ⟨rfl, by rw [encode, ← hsegments, ← hbody], hcount.trans hexpected⟩
    · rw [if_pos hexpected] at h
      exact absurd h (by simp)

/-- Bytes read as a key exactly when they are the bytes of the key and it has as many ids as its
kind has levels. -/
theorem decode_eq_ok_iff (bytes : Bytes) (key : Key) :
    decode bytes = .ok key ↔ bytes = key.encode ∧ ∃ depth, key.kind.depth = some depth ∧
      key.ids.length = if key.wildcard then depth else depth + 1 := by
  constructor
  · intro h
    rw [decode] at h
    split at h
    · exact absurd h (by simp)
    · cases hkind : Kind.ofCode? (bytes.take codeWidth) with
      | none =>
        rw [hkind] at h
        exact absurd h (by simp)
      | some kind =>
        rw [hkind] at h
        dsimp only at h
        cases hdepth : kind.depth with
        | none =>
          rw [hdepth] at h
          exact absurd h (by simp)
        | some depth =>
          rw [hdepth] at h
          obtain ⟨rfl, hbody, hids⟩ := encode_of_decodeBody h
          rw [Kind.code_of_ofCode? hkind, List.take_append_drop] at hbody
          exact ⟨hbody.symm, depth, hdepth, hids⟩
  · rintro ⟨rfl, depth, hdepth, hids⟩
    exact decode_encode key depth hdepth hids

/-- A body is refused only because it is no sequence of ids. -/
theorem corruptKey_of_decodeBody {kind : Kind} {depth : Nat} {body : Bytes} {error : Error}
    (h : decodeBody kind depth body = .error error) : ∃ fault, error = .corruptKey fault := by
  rw [decodeBody] at h
  cases hsplit : splitBody body with
  | error fault =>
    rw [hsplit] at h
    obtain rfl := Except.error.inj h
    exact corruptKey_of_splitBody hsplit
  | ok parts =>
    rw [hsplit] at h
    dsimp only at h
    by_cases hcount : parts.1.length / segmentWidth = if parts.2 then depth else depth + 1
    · rw [if_neg (not_not_intro hcount)] at h
      cases hread : readSegments (parts.1.length / segmentWidth) parts.1 with
      | ok ids =>
        rw [hread] at h
        exact absurd h (by simp)
      | error fault =>
        rw [hread] at h
        obtain rfl := Except.error.inj h
        exact corruptKey_of_readSegments hread
    · rw [if_pos hcount] at h
      exact ⟨_, (Except.error.inj h).symm⟩

/-- Bytes that do not read as a key start with the code of a kind without keys, or are corrupt. -/
theorem error_of_decode {bytes : Bytes} {error : Error} (h : decode bytes = .error error) :
    (∃ fault, error = .corruptKey fault) ∨
      ∃ kind, kind.depth = none ∧ bytes.take codeWidth = kind.code ∧
        error = .unsupportedKind kind := by
  rw [decode] at h
  split at h
  · exact Or.inl ⟨_, (Except.error.inj h).symm⟩
  · cases hkind : Kind.ofCode? (bytes.take codeWidth) with
    | none =>
      rw [hkind] at h
      exact Or.inl ⟨_, (Except.error.inj h).symm⟩
    | some kind =>
      rw [hkind] at h
      dsimp only at h
      cases hdepth : kind.depth with
      | none =>
        rw [hdepth] at h
        exact Or.inr ⟨kind, hdepth, (Kind.code_of_ofCode? hkind).symm, (Except.error.inj h).symm⟩
      | some depth =>
        rw [hdepth] at h
        exact Or.inl (corruptKey_of_decodeBody h)

/-- A kind without keys is named as the fault of exactly the bytes that start with its code. -/
theorem decode_eq_unsupportedKind_iff (bytes : Bytes) (kind : Kind) :
    decode bytes = .error (.unsupportedKind kind) ↔
      kind.depth = none ∧ bytes.take codeWidth = kind.code := by
  constructor
  · intro h
    rcases error_of_decode h with ⟨fault, hfault⟩ | ⟨kind', hdepth, hcode, heq⟩
    · exact absurd hfault (by simp)
    · obtain rfl := Error.unsupportedKind.inj heq
      exact ⟨hdepth, hcode⟩
  · rintro ⟨hdepth, hcode⟩
    have hlong : ¬ bytes.length < codeWidth := by
      have hlength := congrArg List.length hcode
      rw [List.length_take, Kind.code_length] at hlength
      exact Nat.not_lt.mpr (Nat.le_trans (Nat.le_of_eq hlength.symm) (Nat.min_le_right _ _))
    simp only [decode, if_neg hlong, hcode, Kind.ofCode?_code, hdepth]

end Key

end EntityCatalog
