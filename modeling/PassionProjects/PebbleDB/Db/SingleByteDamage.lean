/-
  PassionProjects.PebbleDB.Db.SingleByteDamage

  One changed byte in anything the database reads back: a manifest, a table's
  footer, a block, a log record outside its length fields.  No decoder accepts
  the result.  A decoder that comes to compare checksums has taken the lengths
  from the bytes it was given, so it compares over exactly what was written.
-/

import PassionProjects.PebbleDB.Manifest.Format
import PassionProjects.PebbleDB.Sstable.Format
import PassionProjects.PebbleDB.Wal.Damage

namespace PassionProjects.PebbleDB

open PassionProjects.PebbleDB.Util

-- ============================================================================
-- What each decoder has compared when it accepts
-- ============================================================================

namespace Manifest

/-- The accepted bytes are exactly as long as their table count says. -/
theorem checksum_of_decodeManifest {bytes : Bytes} {data : ManifestData}
    (h : decodeManifest bytes = .ok data) : crc32c (bytes.drop 4) = decodeFixed32 bytes := by
  simp only [decodeManifest] at h
  repeat' split at h
  all_goals cases h
  next hcount hshort hlong hsum =>
  have hlen : bytes.length =
      kHeaderSize + (decodeFixed32 (bytes.drop kNumTablesOffset)).toNat * kTableEntrySize := by
        omega
  have htake : (bytes.drop kMagicOffset).take (kHeaderSize +
      (decodeFixed32 (bytes.drop kNumTablesOffset)).toNat * kTableEntrySize - kMagicOffset) =
        bytes.drop kMagicOffset := by
    apply List.take_of_length_le
    rw [List.length_drop, hlen]
  rw [htake] at hsum
  exact not_not.mp hsum

theorem changed_not_ok {data : ManifestData} {t : Bytes} (h : OneByteOff (encodeManifest data) t)
    (decoded : ManifestData) : decodeManifest t ≠ .ok decoded := by
  intro hok
  obtain ⟨pos, h⟩ := h
  have hlen : 4 ≤ (encodeManifest data).length := by
    rw [encodeManifest_length, kHeaderSize]
    omega
  have hsum : crc32c ((encodeManifest data).drop 4) = decodeFixed32 (encodeManifest data) :=
    (decodeFixed32_putFixed32 _ _).symm
  exact h.front_ne hlen hsum (checksum_of_decodeManifest hok)

end Manifest

namespace Sstable

theorem checksum_of_decodeFooter {bytes : Bytes} {footer : Footer}
    (hlen : bytes.length = kFooterSize) (h : decodeFooter bytes = .ok footer) :
    crc32c (bytes.drop 4) = decodeFixed32 bytes := by
  simp only [decodeFooter] at h
  repeat' split at h
  all_goals cases h
  next hsum =>
  have htake : (bytes.drop kFooterMagicOffset).take (kFooterSize - kFooterMagicOffset) =
      bytes.drop kFooterMagicOffset := by
    apply List.take_of_length_le
    rw [List.length_drop, hlen]
  rw [htake] at hsum
  exact not_not.mp hsum

theorem changed_footer_not_ok {footer : Footer} {t : Bytes} (h : OneByteOff (encodeFooter footer) t)
    (decoded : Footer) : decodeFooter t ≠ .ok decoded := by
  intro hok
  obtain ⟨pos, h⟩ := h
  have hsum : crc32c ((encodeFooter footer).drop 4) = decodeFixed32 (encodeFooter footer) :=
    (decodeFixed32_putFixed32 _ _).symm
  have hlen : t.length = kFooterSize := h.length_eq.trans (encodeFooter_length footer)
  exact h.front_ne (by rw [encodeFooter_length]; decide) hsum (checksum_of_decodeFooter hlen hok)

/-- The checksum of a block covers everything in front of it. -/
theorem checksum_of_verifyAndStripBlockTrailer {bytes contents : Bytes} {n : Nat}
    (hlen : bytes.length = n + kBlockTrailerSize)
    (h : verifyAndStripBlockTrailer bytes = .ok contents) :
    crc32c (bytes.take (n + 1)) = decodeFixed32 (bytes.drop (n + 1)) := by
  have hn : bytes.length - kBlockTrailerSize = n := by omega
  have hlt : n < bytes.length := by
    rw [hlen, kBlockTrailerSize]
    omega
  simp only [verifyAndStripBlockTrailer, hn] at h
  repeat' split at h
  all_goals cases h
  next hsum =>
  rw [← not_not.mp hsum, blockChecksum, crc32c, crc32c, ← extendCrc32c_append,
    List.getD_eq_getElem?_getD, List.getElem?_eq_getElem hlt, Option.getD_some,
    List.take_append_getElem hlt]

theorem changed_block_not_ok {contents : Bytes} {t : Bytes}
    (h : OneByteOff (finishBlock contents) t)
    (decoded : Bytes) : verifyAndStripBlockTrailer t ≠ .ok decoded := by
  intro hok
  obtain ⟨pos, h⟩ := h
  have hlen := finishBlock_length contents
  have hsum := checksum_of_verifyAndStripBlockTrailer hlen (verify_finishBlock contents)
  exact h.back_ne hlen hsum (checksum_of_verifyAndStripBlockTrailer (h.length_eq.trans hlen) hok)

end Sstable

-- ============================================================================
-- All four formats
-- ============================================================================

/-- One changed byte changes every checksum, and no decoder accepts an encoded
    manifest, footer, block or record in which one byte was changed.  For a record
    the length fields are left alone; its payload is what follows the header, or
    as much of that as the header declares, which is what the reader hands over. -/
theorem one_changed_byte_detected :
    (∀ crc s t, OneByteOff s t → extendCrc32c crc s ≠ extendCrc32c crc t) ∧
    (∀ data t, OneByteOff (Manifest.encodeManifest data) t →
      ∀ decoded, Manifest.decodeManifest t ≠ .ok decoded) ∧
    (∀ footer t, OneByteOff (Sstable.encodeFooter footer) t →
      ∀ decoded, Sstable.decodeFooter t ≠ .ok decoded) ∧
    (∀ contents t, OneByteOff (Sstable.finishBlock contents) t →
      ∀ decoded, Sstable.verifyAndStripBlockTrailer t ≠ .ok decoded) ∧
    (∀ record pos t, ¬ Wal.IsLengthField pos → ChangedAt pos (Wal.encodeRecord record) t →
      ∀ header, Wal.decodeHeader (t.take Wal.kHeaderSize) = .ok header → ∀ decoded,
        Wal.decodeBody header (t.take Wal.kHeaderSize) (t.drop Wal.kHeaderSize) ≠ .ok decoded ∧
        (record.Fits → Wal.decodeBody header (t.take Wal.kHeaderSize)
          ((t.drop Wal.kHeaderSize).take header.payloadLength) ≠ .ok decoded)) := by
  refine ⟨?_, fun _ _ => Manifest.changed_not_ok, fun _ _ => Sstable.changed_footer_not_ok,
    fun _ _ => Sstable.changed_block_not_ok, ?_⟩
  · rintro crc s t ⟨pos, h⟩
    exact h.extendCrc32c_ne crc
  · intro record pos t hfield h header hd decoded
    have hwhole := Wal.decodeBody_ne_ok (Wal.bodyChecksum_changed h hd) decoded
    refine ⟨hwhole, fun hfits => ?_⟩
    have hrest : (t.drop Wal.kHeaderSize).length ≤ header.payloadLength := by
      rw [Wal.payloadLength_changed hfits h hfield hd, List.length_drop, h.length_eq,
        Wal.encodeRecord_length]
      omega
    rwa [List.take_of_length_le hrest]

/-- The manifest of an empty directory with the first byte of its magic number
    changed. -/
theorem one_changed_byte_detected_magic :
    ¬ ∃ decoded, Manifest.decodeManifest ((Manifest.encodeManifest {}).set 4 0) = .ok decoded := by
  rintro ⟨decoded, hok⟩
  have hchanged : ChangedAt 4 (Manifest.encodeManifest {}) ((Manifest.encodeManifest {}).set 4 0) :=
    changedAt_set (by rw [Manifest.encodeManifest_length]; decide) (by decide)
  exact one_changed_byte_detected.2.1 {} _ ⟨4, hchanged⟩ decoded hok

end PassionProjects.PebbleDB
