/-
What is written to the log is read back: one lemma for each reader. On a part of what was written a
reader raises a serialization exception.
-/
import Haybarn.Wal.Entry

namespace Haybarn.Wal

open Lib

/-! ## Properties and objects -/

section Properties

variable {σ α γ : Type} {K : σ → Prop} {s s' : σ} {bs : Bytes} {a : α}

variable {id : Nat} {read : Deserializer σ α}

theorem reads_onPropertyBegin (hid : id < 256 ^ 2) (hk : K s) :
    Reads WalException.Torn K (onPropertyBegin id) s (writeField id) () s := by
  refine (reads_word hid hk).bind_pure ?_
  rw [if_neg (not_not.2 rfl)]
  exact .pure () s

theorem reads_onObjectEnd (hk : K s) : Reads WalException.Torn K onObjectEnd s terminator () s := by
  refine (reads_word (by decide) hk).bind_pure ?_
  rw [if_neg (not_not.2 rfl)]
  exact .pure () s

theorem reads_property (hid : id < 256 ^ 2) (hk : K s)
    (h : Reads WalException.Torn K read s bs a s') :
    Reads WalException.Torn K (readProperty id read) s (writeProperty id bs) a s' :=
  (reads_onPropertyBegin hid hk).bind h

theorem reads_propertyWithDefault {default : α} (hid : id < 256 ^ 2) (hk : K s)
    (h : Reads WalException.Torn K read s bs a s') :
    Reads WalException.Torn K (readPropertyWithDefault id default read) s (writeProperty id bs) a s' := by
  refine (reads_word hid hk).peek ?_
  rw [if_pos rfl]
  exact reads_property hid hk h

theorem reads_propertyWithDefault_absent {other : Nat} {default : α}
    {q : α → Deserializer σ γ} {c : γ} {after : Bytes} (hother : other < 256 ^ 2) (hne : other ≠ id) (hk : K s)
    (h : Reads WalException.Torn K (q default) s (writeField other ++ after) c s') :
    Reads WalException.Torn K (readPropertyWithDefault id default read >>= q) s (writeField other ++ after) c s' := by
  unfold readPropertyWithDefault
  rw [bind_assoc]
  refine (reads_word hother hk).peek ?_
  rw [if_neg hne, pure_bind]
  exact h

theorem reads_elements {write : α → Bytes} {read : Deserializer σ γ} {value : α → γ}
    (h : ∀ x, Reads WalException.Torn K read s (write x) (value x) s) :
    ∀ l : List α, Reads WalException.Torn K (readElements read l.length) s (l.flatMap write) (l.map value) s
  | [] => .pure [] s
  | x :: l => by
    rw [List.flatMap_cons]
    exact (h x).bind ((reads_elements h l).bind_pure (.pure _ s))

theorem reads_list {write : α → Bytes} {read : Deserializer σ γ} {value : α → γ} {l : List α} (hlen : l.length < 2 ^ 64)
    (hk : K s) (h : ∀ x, Reads WalException.Torn K read s (write x) (value x) s) :
    Reads WalException.Torn K (readList read) s (writeList write l) (l.map value) s :=
  (reads_varInt (Nat.le_refl 64) (by decide) hlen hk).bind (reads_elements h l)

end Properties

/-! ## The header -/

section Header

variable {K : ReplayState → Prop} {s s' : ReplayState} {db : DatabaseFile}

theorem reads_idx {v : Nat} (hv : v < 2 ^ 64) (hk : K s) :
    Reads WalException.Torn K (varIntDecode 64) s (encodeUnsignedLEB128 v) v s :=
  reads_varInt (Nat.le_refl 64) (by decide) hv hk

theorem ofNat_toNat_map (l : List UInt8) : (l.map (·.toNat)).map UInt8.ofNat = l := by
  rw [List.map_map]
  exact (List.map_congr_left fun b _ => UInt8.ofNat_toNat).trans (List.map_id l)

/-- The iteration that a header tells: none in an old file. -/
def headerIteration (db : DatabaseFile) (checkpointIteration : Option UInt64) : Option UInt64 :=
  if db.versionNumber > 66 then optionalIdx (checkpointIteration.getD db.checkpointIteration).toNat else none

theorem reads_replayVersion {checkpointIteration : Option UInt64} (hk : K s) (hk' : K { s with walVersion := 2 })
    (hcheck : checkVersion db db.dbIdentifier (headerIteration db checkpointIteration) { s with walVersion := 2 } =
      .ok s') (hs : K s') :
    Reads WalException.Torn K (do
      replayVersion db
      onObjectEnd) s
      (writeProperty 101 (encodeUnsignedLEB128 2) ++
        ((if db.versionNumber > 66 then
            writeProperty 102 (writeList (fun b => encodeUnsignedLEB128 b.toNat) db.dbIdentifier) ++
            writeProperty 103 (encodeUnsignedLEB128 (checkpointIteration.getD db.checkpointIteration).toNat)
          else []) ++ terminator)) () s' := by
  unfold replayVersion
  simp only [bind_assoc]
  refine (reads_property (by decide) hk (reads_idx (by decide) hk)).bind ?_
  refine (Reads.modifyState _ s).step ?_
  unfold headerIteration at hcheck
  by_cases hversion : db.versionNumber > 66
  · rw [if_pos hversion] at hcheck ⊢
    have hbyte : ∀ b : UInt8, Reads WalException.Torn K (varIntDecode 8) { s with walVersion := 2 }
        (encodeUnsignedLEB128 b.toNat) b.toNat { s with walVersion := 2 } := fun b =>
      reads_varInt (by decide) (by decide) b.toNat_lt hk'
    have hlist := reads_list (l := db.dbIdentifier) (by rw [db.identifier_length]; decide) hk' hbyte
    rw [List.append_assoc]
    refine (reads_propertyWithDefault (by decide) hk' hlist).bind ?_
    refine (reads_propertyWithDefault (by decide) hk' (reads_idx (UInt64.toNat_lt _) hk')).bind ?_
    rw [ofNat_toNat_map]
    exact (Reads.tryModifyState hcheck).step (reads_onObjectEnd hs)
  · rw [if_neg hversion] at hcheck ⊢
    have hend : terminator = writeField messageTerminatorFieldId ++ [] := (List.append_nil _).symm
    rw [List.nil_append, hend]
    refine reads_propertyWithDefault_absent (by decide) (by decide) hk' ?_
    refine reads_propertyWithDefault_absent (by decide) (by decide) hk' ?_
    rw [← hend]
    exact (Reads.tryModifyState hcheck).step (reads_onObjectEnd hs)

variable {β : Type} (format : Format β)

theorem reads_type (type : WALType) (hk : K s) : Reads WalException.Torn K (readProperty 100 (varIntDecode 8)) s
    (writeProperty 100 (encodeUnsignedLEB128 type.value)) type.value s := by
  have hlt := type.value_lt
  exact reads_property (by decide) hk (reads_varInt (by decide) (by decide) (by omega) hk)

theorem reads_header {checkpointIteration : Option UInt64} (hk : K s) (hk' : K { s with walVersion := 2 })
    (hcheck : checkVersion db db.dbIdentifier (headerIteration db checkpointIteration) { s with walVersion := 2 } =
      .ok s') (hs : K s') :
    Reads WalException.Torn K (replayEntry format db) s (writeHeader db checkpointIteration) .version s' := by
  refine (reads_type .walVersion hk).bind ?_
  rw [WALType.ofValue_value]
  have h := (reads_replayVersion hk hk' hcheck hs).bind_pure (q := fun _ => pure (Entry.version : Entry β)) (.pure _ s')
  rwa [bind_assoc] at h

end Header

/-! ## Entries -/

section Entries

variable {K : ReplayState → Prop} {s s' : ReplayState} {db : DatabaseFile} {β : Type} (format : Format β)

variable {data : Bytes}

theorem reads_entryData (fileSize : Nat) (hlen : data.length < 2 ^ 64) (hk : K s) :
    Reads WalException.Torn K (readEntryData format fileSize) s (flushEntry format data) data s := by
  have hsum : (format.checksum data).toNat < 256 ^ 8 := UInt64.toNat_lt _
  refine (reads_word (by omega) hk).bind ((reads_word hsum hk).bind ?_)
  constructor
  · intro rest
    have hleft : ¬ (data ++ rest).length < data.length := by
      rw [List.length_append]
      omega
    have htake : Reads WalException.Torn K (takeUnits .notEnoughData data.length) s data data s := .takeUnits rfl rfl hk
    have hremaining : (remaining : Deserializer ReplayState Nat) ⟨data ++ rest, s⟩ =
      .ok (data ++ rest).length ⟨data ++ rest, s⟩ := rfl
    rw [bind_ok hremaining, if_neg hleft, bind_ok (htake.whole rest), if_neg (not_not.2 rfl)]
    rfl
  · intro cut hcut hne
    have hlt : cut.length < data.length := by
      have hle := hcut.length_le
      have : cut.length ≠ data.length := fun h => hne (hcut.eq_of_length h)
      omega
    have hremaining : (remaining : Deserializer ReplayState Nat) ⟨cut, s⟩ = .ok cut.length ⟨cut, s⟩ := rfl
    refine ⟨.entrySizeExceeded (fileSize - cut.length) data.length fileSize, ⟨cut, s⟩, ?_, rfl, hk⟩
    rw [bind_ok hremaining, if_pos hlt]
    rfl

theorem reads_entry {entry : Entry β} {left : Bytes} (fileSize : Nat) (hlen : data.length < 2 ^ 64)
    (hk : K s) (hversion : s.walVersion = 2) (h : replayEntry format db ⟨data, s⟩ = .ok entry ⟨left, s'⟩) :
    Reads WalException.Torn K (readEntry format db fileSize) s (flushEntry format data) entry s' := by
  refine (Reads.getState s).step ?_
  rw [if_neg (by omega), if_pos hversion]
  refine (reads_entryData format fileSize hlen hk).bind_pure (.empty fun rest => ?_)
  unfold withInput
  dsimp only
  rw [h]

theorem reads_end {p : Deserializer ReplayState (Entry β)} {entry : Entry β}
    (h : Reads WalException.Torn (fun _ => True) p s data entry s') : p ⟨data, s⟩ = .ok entry ⟨[], s'⟩ := by
  have h := h.whole []
  rwa [List.append_nil] at h

theorem entryData_length (type : WALType) (contents : Bytes) : (entryData type contents).length = contents.length + 5 := by
  unfold entryData writeProperty terminator writeField
  rw [encode_small type.value_lt, List.length_append, List.length_append, List.length_append, writeWord_length,
    writeWord_length, List.length_singleton]
  omega

theorem reads_flush (db : DatabaseFile) (fileSize : Nat) (hk : K s) (hversion : s.walVersion = 2) :
    Reads WalException.Torn K (readEntry format db fileSize) s (writeFlush format) .flush s := by
  refine reads_entry format fileSize (by rw [entryData_length]; decide) hk hversion (reads_end ?_)
  refine (reads_type .walFlush trivial).bind ?_
  rw [WALType.ofValue_value, List.nil_append]
  exact (reads_onObjectEnd trivial).bind_pure (.pure _ s)

theorem reads_change (db : DatabaseFile) (fileSize : Nat) (b : β) (hk : K s) (hversion : s.walVersion = 2) :
    Reads WalException.Torn K (readEntry format db fileSize) s (writeChange format b) (.change b) s := by
  have hlen : (entryData (format.type b) (format.serialize b)).length < 2 ^ 64 := by
    have := format.small b
    rw [entryData_length]
    omega
  have htype := (reads_type (K := fun _ => True) (s := s) (format.type b) trivial).whole (format.serialize b ++ terminator)
  have hchange : readChange format (format.type b) ⟨format.serialize b ++ terminator, s⟩ = .ok b ⟨terminator, s⟩ := by
    unfold readChange
    dsimp only
    rw [format.deserialize_serialize]
  have hend := (reads_onObjectEnd (K := fun _ => True) (s := s) trivial).whole []
  rw [List.append_nil] at hend
  have hresult : replayEntry format db ⟨entryData (format.type b) (format.serialize b), s⟩ = .ok (.change b) ⟨[], s⟩ := by
    unfold replayEntry entryData
    rw [bind_ok htype, WALType.ofValue_value]
    have hisChange := format.isChange b
    generalize format.type b = type at hisChange hchange
    -- every type but the four others is read the same way
    cases type <;> first
      | contradiction
      | exact (bind_ok hchange).trans (bind_ok hend)
  exact reads_entry format fileSize hlen hk hversion hresult

/-! ### The checkpoint marker -/

theorem encode_length : ∀ {n v : Nat}, v < 128 ^ n → 0 < n → (encodeUnsignedLEB128 v).length ≤ n
  | 0, _, _, hn => absurd hn (Nat.lt_irrefl 0)
  | n + 1, v, hv, _ => by
    by_cases hsmall : v < 128
    · rw [encode_small hsmall, List.length_singleton]
      omega
    · rw [encode_large (by omega), List.length_cons]
      have hdiv : v / 128 < 128 ^ n := Nat.div_lt_of_lt_mul (by rwa [Nat.pow_succ, Nat.mul_comm] at hv)
      have hn : 0 < n := by
        rcases Nat.eq_zero_or_pos n with rfl | hn
        · omega
        · exact hn
      have := encode_length hdiv hn
      omega

theorem metaBlock_length (m : MetaBlockPointer) : m.write.length ≤ 26 := by
  have h1 := encode_length (n := 10) (v := m.blockPointer.toNat) (by have := m.blockPointer.toNat_lt; omega) (by decide)
  have h2 := encode_length (n := 10) (v := m.offset.toNat) (by have := m.offset.toNat_lt; omega) (by decide)
  unfold MetaBlockPointer.write writeProperty terminator writeField
  split <;> split <;> simp only [List.length_append, List.length_nil, writeWord_length] <;> omega

theorem reads_metaBlockPointer (m : MetaBlockPointer) (hk : K s) :
    Reads WalException.Torn K readMetaBlockPointer s m.write m s := by
  have hblock : Reads WalException.Torn K (varIntDecode 64) s (encodeUnsignedLEB128 m.blockPointer.toNat)
      m.blockPointer.toNat s := reads_idx (UInt64.toNat_lt _) hk
  have hoffset : Reads WalException.Torn K (varIntDecode 32) s (encodeUnsignedLEB128 m.offset.toNat) m.offset.toNat s :=
    reads_varInt (by decide) (by decide) (UInt32.toNat_lt _) hk
  have hend : terminator = writeField messageTerminatorFieldId ++ [] := (List.append_nil _).symm
  -- from the offset on, after a block pointer
  have hrest : ∀ block : Nat, Reads WalException.Torn K (do
      let offset ← readPropertyWithDefault 101 0 (varIntDecode 32)
      onObjectEnd
      return ({ blockPointer := UInt64.ofNat block, offset := UInt32.ofNat offset } : MetaBlockPointer)) s
      ((if m.offset ≠ 0 then writeProperty 101 (encodeUnsignedLEB128 m.offset.toNat) else []) ++ terminator)
      { blockPointer := UInt64.ofNat block, offset := m.offset } s := by
    intro block
    by_cases h0 : m.offset ≠ 0
    · rw [if_pos h0]
      refine (reads_propertyWithDefault (by decide) hk hoffset).bind ((reads_onObjectEnd hk).bind_pure ?_)
      rw [UInt32.ofNat_toNat]
      exact .pure _ s
    · rw [if_neg h0, List.nil_append, hend]
      refine reads_propertyWithDefault_absent (by decide) (by decide) hk ?_
      rw [← hend, not_not.1 h0]
      exact (reads_onObjectEnd hk).bind_pure (.pure _ s)
  unfold readMetaBlockPointer MetaBlockPointer.write
  by_cases h0 : m.blockPointer ≠ 0
  · rw [if_pos h0]
    refine (reads_propertyWithDefault (by decide) hk hblock).bind ?_
    have h := hrest m.blockPointer.toNat
    have hm : ({ blockPointer := UInt64.ofNat m.blockPointer.toNat, offset := m.offset } : MetaBlockPointer) = m := by
      rw [UInt64.ofNat_toNat]
    rwa [hm] at h
  · rw [if_neg h0, List.nil_append]
    have h := hrest 0
    have hm : ({ blockPointer := UInt64.ofNat 0, offset := m.offset } : MetaBlockPointer) = m := by
      rw [show UInt64.ofNat 0 = m.blockPointer from (not_not.1 h0).symm]
    rw [hm] at h
    -- the field that follows is 101 or the terminator
    obtain ⟨other, after, hother, hne, hbytes⟩ : ∃ other after, other < 256 ^ 2 ∧ other ≠ 100 ∧
        (if m.offset ≠ 0 then writeProperty 101 (encodeUnsignedLEB128 m.offset.toNat) else []) ++ terminator =
          writeField other ++ after := by
      by_cases h1 : m.offset ≠ 0
      · exact ⟨101, encodeUnsignedLEB128 m.offset.toNat ++ terminator, by decide, by decide,
          by rw [if_pos h1, writeProperty, List.append_assoc]⟩
      · exact ⟨messageTerminatorFieldId, [], by decide, by decide, by rw [if_neg h1, List.nil_append, ← hend]⟩
    rw [hbytes] at h ⊢
    exact reads_propertyWithDefault_absent hother hne hk h

theorem reads_checkpoint (db : DatabaseFile) (fileSize : Nat) (m : MetaBlockPointer) (hk : K s)
    (hversion : s.walVersion = 2) (hposition : s.checkpointPosition = none) :
    Reads WalException.Torn K (readEntry format db fileSize) s (writeCheckpoint format m) .checkpoint
      { s with checkpointId := m, checkpointPosition := s.currentPosition } := by
  have hlen : (entryData .checkpoint (writeProperty 101 m.write)).length < 2 ^ 64 := by
    have := metaBlock_length m
    rw [entryData_length, writeProperty, List.length_append, writeField, writeWord_length]
    omega
  refine reads_entry format fileSize hlen hk hversion (reads_end ?_)
  refine (reads_type .checkpoint trivial).bind ?_
  rw [WALType.ofValue_value]
  dsimp only
  unfold replayCheckpoint
  rw [bind_assoc]
  refine (Reads.getState s).step ?_
  have hnot : ¬ s.checkpointPosition.isSome = true := by
    rw [hposition]
    exact nofun
  rw [if_neg hnot, bind_assoc]
  refine (reads_property (by decide) trivial (reads_metaBlockPointer m trivial)).bind ?_
  exact (Reads.modifyState _ s).step ((reads_onObjectEnd trivial).bind_pure (.pure _ _))

end Entries

end Haybarn.Wal
