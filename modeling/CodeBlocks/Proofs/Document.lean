import CodeBlocks.Document

/-! # Document keys — a key names one version of one document

    A key is an id, an `@` and a decimal.  The id is free text and may hold
    `@` and digits, so the key is read from its end: the decimal holds no
    `@`, and the last `@` of the key is the one that was put in.

    An update counts the version up.  So the versions that updates make of
    a document have a key each, as long as their numbers do not run out. -/

namespace CodeBlocks

namespace Document

/-- The decimal of a version holds no `@`. -/
theorem at_not_mem_decimal (n : Nat) : '@' ∉ Nat.toDigits 10 n := by
  intro h
  have hdigit : '@'.isDigit = true := Nat.isDigit_of_mem_toDigits (by decide) (by decide) h
  exact absurd hdigit (by decide)

/-- A mark that the two tails do not hold divides a list in one way only. -/
theorem split_at_last_mark {α : Type} {mark : α} {front front' tail tail' : List α}
    (h : front ++ mark :: tail = front' ++ mark :: tail')
    (htail : mark ∉ tail) (htail' : mark ∉ tail') : front = front' ∧ tail = tail' := by
  rcases List.append_eq_append_iff.mp h with ⟨gap, hfront, hrest⟩ | ⟨gap, hfront, hrest⟩
  · cases gap with
    | nil => exact ⟨by simpa using hfront.symm, (List.cons.inj hrest).2⟩
    | cons c gap =>
        -- a mark left over in the gap would lie in the first tail
        have htl : tail = gap ++ mark :: tail' := (List.cons.inj hrest).2
        exact absurd (by simp [htl]) htail
  · cases gap with
    | nil => exact ⟨by simpa using hfront, (List.cons.inj hrest).2.symm⟩
    | cons c gap =>
        have htl : tail' = gap ++ mark :: tail := (List.cons.inj hrest).2
        exact absurd (by simp [htl]) htail'

/-- The characters of a key. -/
theorem toList_key (d : Document) :
    d.key.toList = d.id.toList ++ '@' :: Nat.toDigits 10 d.version := by
  simp [key]

/-- Documents with the same key are the same version of the same document. -/
theorem eq_of_key_eq {d e : Document} (h : d.key = e.key) :
    d.id = e.id ∧ d.version = e.version := by
  have hlist : d.id.toList ++ '@' :: Nat.toDigits 10 d.version
      = e.id.toList ++ '@' :: Nat.toDigits 10 e.version := by
    rw [← toList_key, ← toList_key, h]
  obtain ⟨hid, hversion⟩ := split_at_last_mark hlist
    (at_not_mem_decimal d.version) (at_not_mem_decimal e.version)
  refine ⟨String.toList_inj.mp hid, ?_⟩
  calc d.version
      = Nat.ofDigitChars 10 (Nat.toDigits 10 d.version) 0 := Nat.ofDigitChars_ten_toDigits.symm
    _ = Nat.ofDigitChars 10 (Nat.toDigits 10 e.version) 0 := by rw [hversion]
    _ = e.version := Nat.ofDigitChars_ten_toDigits

/-! ## Updates -/

/-- A document and what updates to the given texts make of it, one after the other. -/
def versions (d : Document) (texts : List String) : List Document := texts.scanl update d

theorem versions_cons (d : Document) (text : String) (texts : List String) :
    d.versions (text :: texts) = d :: (d.update text).versions texts :=
  List.scanl_cons

theorem version_update {d : Document} (h : d.version < Word.greatest) (text : String) :
    (d.update text).version = d.version + 1 :=
  Word.next_eq_add_one h

/-- Updates never count back. -/
theorem version_le_of_mem_versions {d e : Document} {texts : List String}
    (hfits : d.version + texts.length ≤ Word.greatest) (he : e ∈ d.versions texts) :
    d.version ≤ e.version := by
  induction texts generalizing d with
  | nil =>
      obtain rfl := List.mem_singleton.mp he
      exact Nat.le_refl _
  | cons text texts ih =>
      rw [List.length_cons] at hfits
      rw [versions_cons] at he
      rcases List.mem_cons.mp he with rfl | hlater
      · exact Nat.le_refl _
      · have hnext := version_update (d := d) (by omega) text
        have hle := ih (d := d.update text) (by omega) hlater
        omega

/-- The versions of a document have a key each. -/
theorem nodup_keys_versions {d : Document} {texts : List String}
    (hfits : d.version + texts.length ≤ Word.greatest) :
    ((d.versions texts).map key).Nodup := by
  induction texts generalizing d with
  | nil => exact List.pairwise_singleton _ _
  | cons text texts ih =>
      rw [List.length_cons] at hfits
      have hnext := version_update (d := d) (by omega) text
      rw [versions_cons, List.map_cons, List.nodup_cons]
      refine ⟨?_, ih (by omega)⟩
      -- a later version has a greater number, and the key tells the number
      intro hmem
      obtain ⟨e, he, hkey⟩ := List.mem_map.mp hmem
      have hle := version_le_of_mem_versions (by omega) he
      have heq := (eq_of_key_eq hkey).2
      omega

end Document

/-- **A key names one version of one document.**  Two documents have the same key exactly if they
    have the same id and the same version.  So the keys of a document and of what `k` updates make
    of it are `k + 1` different ones, as long as all versions are 64-bit numbers. -/
theorem keys_name_versions :
    (∀ d e : Document, d.key = e.key ↔ d.id = e.id ∧ d.version = e.version) ∧
    ∀ (d : Document) (texts : List String), d.version + texts.length < UInt64.size →
      (d.versions texts).length = texts.length + 1 ∧
        ((d.versions texts).map Document.key).Nodup := by
  constructor
  · intro d e
    constructor
    · exact Document.eq_of_key_eq
    · rintro ⟨hid, hversion⟩
      rw [Document.key, Document.key, hid, hversion]
  · intro d texts hfits
    exact ⟨List.length_scanl, Document.nodup_keys_versions (Nat.le_sub_one_of_lt hfits)⟩

/-- An id that looks like a key itself, and the last three versions there are. -/
theorem keys_name_last_versions :
    let d : Document := ⟨"a@1", 18446744073709551613, ""⟩
    d.version + 2 < UInt64.size ∧ (⟨"a@1", 2, ""⟩ : Document).key ≠ (⟨"a", 12, ""⟩ : Document).key ∧
      (d.versions ["x", "y"]).map Document.version
        = [18446744073709551613, 18446744073709551614, 18446744073709551615] ∧
      ((d.versions ["x", "y"]).map Document.key).Nodup := by
  intro d
  have hfits : d.version + 2 < UInt64.size := by decide
  refine ⟨hfits, ?_, by decide, (keys_name_versions.2 d ["x", "y"] hfits).2⟩
  intro hkey
  exact absurd ((keys_name_versions.1 _ _).mp hkey).2 (by decide)

end CodeBlocks
