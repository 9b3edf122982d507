import XmlStore.Database.Path

/-!
# Reading back what was encoded

* `Utf8.scan_encodeChar` — the bytes of a character are read as that character, wherever they stand.
* `Utf8.lossy_encode` — hence an encoded text is read back as it was, without gaps.
* `Path.exists_encode_splitLast` — the slash never stands inside the bytes of another character, so
  the file name in an encoded path is an encoded text again.
-/

namespace XmlStore

namespace Utf8

theorem toNat_ofNat_of_lt {n : Nat} (h : n < 256) : (UInt8.ofNat n).toNat = n := by
  rw [UInt8.toNat_ofNat']
  exact Nat.mod_eq_of_lt h

/-! ## First bytes -/

theorem ofByte?_one {n : Nat} (h : n < 0x80) :
    Lead.ofByte? (UInt8.ofNat n) = some ⟨0, 0x80, 0xBF, n⟩ := by
  have hn := toNat_ofNat_of_lt (n := n) (by omega)
  simp [Lead.ofByte?, UInt8.lt_iff_toNat_lt, hn, h]

theorem ofByte?_two {n : Nat} (hlow : 0xC2 ≤ n) (hhigh : n < 0xE0) :
    Lead.ofByte? (UInt8.ofNat n) = some ⟨1, 0x80, 0xBF, n - 0xC0⟩ := by
  have hn := toNat_ofNat_of_lt (n := n) (by omega)
  simp [Lead.ofByte?, UInt8.lt_iff_toNat_lt, hn, hhigh, Nat.not_lt.2 hlow,
    show ¬ n < 0x80 by omega]

/-- A first byte of three bytes; the bounds of the next one keep to characters that need three bytes
and are no surrogates. -/
theorem ofByte?_three {n : Nat} (hlow : 0xE0 ≤ n) (hhigh : n < 0xF0) :
    ∃ low high, Lead.ofByte? (UInt8.ofNat n) = some ⟨2, low, high, n - 0xE0⟩ ∧
      low.toNat = (if n = 0xE0 then 0xA0 else 0x80) ∧
      high.toNat = if n = 0xED then 0x9F else 0xBF := by
  have hn := toNat_ofNat_of_lt (n := n) (by omega)
  have hone : ¬ n < 0x80 := by omega
  have htwo : ¬ n < 0xC2 := by omega
  have hthree : ¬ n < 0xE0 := by omega
  by_cases hfirst : n = 0xE0
  · subst hfirst
    exact ⟨0xA0, 0xBF, by decide, rfl, rfl⟩
  · by_cases hsurrogate : n = 0xED
    · subst hsurrogate
      exact ⟨0x80, 0x9F, by decide, rfl, rfl⟩
    · refine ⟨0x80, 0xBF, ?_, by rw [if_neg hfirst]; rfl, by rw [if_neg hsurrogate]; rfl⟩
      simp [Lead.ofByte?, UInt8.lt_iff_toNat_lt, ← UInt8.toNat_inj, hn, hone, htwo, hthree,
        hhigh, hfirst, hsurrogate]

/-- A first byte of four bytes; the bounds of the next one keep to characters that need four bytes
and exist. -/
theorem ofByte?_four {n : Nat} (hlow : 0xF0 ≤ n) (hhigh : n ≤ 0xF4) :
    ∃ low high, Lead.ofByte? (UInt8.ofNat n) = some ⟨3, low, high, n - 0xF0⟩ ∧
      low.toNat = (if n = 0xF0 then 0x90 else 0x80) ∧
      high.toNat = if n = 0xF4 then 0x8F else 0xBF := by
  have hcases : n = 0xF0 ∨ n = 0xF1 ∨ n = 0xF2 ∨ n = 0xF3 ∨ n = 0xF4 := by omega
  rcases hcases with rfl | rfl | rfl | rfl | rfl
  · exact ⟨0x90, 0xBF, by decide, rfl, rfl⟩
  · exact ⟨0x80, 0xBF, by decide, rfl, rfl⟩
  · exact ⟨0x80, 0xBF, by decide, rfl, rfl⟩
  · exact ⟨0x80, 0xBF, by decide, rfl, rfl⟩
  · exact ⟨0x80, 0x8F, by decide, rfl, rfl⟩

/-! ## Characters -/

theorem continuation_cons {low high : UInt8} {n m : Nat} {rest : Bytes} (hm : m < 256)
    (hlow : low.toNat ≤ m) (hhigh : m ≤ high.toNat) :
    continuation low high (n + 1) (UInt8.ofNat m :: rest) =
      UInt8.ofNat m :: continuation 0x80 0xBF n rest := by
  have hin : low ≤ UInt8.ofNat m ∧ UInt8.ofNat m ≤ high := by
    rw [UInt8.le_iff_toNat_le, UInt8.le_iff_toNat_le, toNat_ofNat_of_lt hm]
    exact ⟨hlow, hhigh⟩
  rw [continuation, if_pos hin]

/-- A later byte that continues a character. -/
theorem continuation_cons_more {n m : Nat} {rest : Bytes} (hlow : 0x80 ≤ m) (hhigh : m ≤ 0xBF) :
    continuation 0x80 0xBF (n + 1) (UInt8.ofNat m :: rest) =
      UInt8.ofNat m :: continuation 0x80 0xBF n rest :=
  continuation_cons (Nat.lt_of_le_of_lt hhigh (by decide)) hlow hhigh

/-- A first byte with all the bytes that it announces. -/
theorem scan_lead {b : UInt8} {lead : Lead} (more rest : Bytes) (hlead : Lead.ofByte? b = some lead)
    (hmore : continuation lead.low lead.high lead.following (more ++ rest) = more)
    (hlength : more.length = lead.following) :
    scan (b :: (more ++ rest)) = some (assemble lead.bits more) :: scan rest := by
  rw [scan, hlead]
  simp only [hmore, hlength, if_true]
  rw [← hlength, List.drop_left]

theorem scan_two {n m : Nat} {rest : Bytes} (hn : 0xC2 ≤ n ∧ n < 0xE0) (hm : 0x80 ≤ m ∧ m ≤ 0xBF) :
    scan (UInt8.ofNat n :: UInt8.ofNat m :: rest) =
      some (Char.ofNat ((n - 0xC0) * 64 + (m - 0x80))) :: scan rest := by
  have hscan := scan_lead [UInt8.ofNat m] rest (ofByte?_two hn.1 hn.2)
    (continuation_cons_more hm.1 hm.2) rfl
  rw [List.singleton_append] at hscan
  rw [hscan, assemble, List.foldl_cons, List.foldl_nil, toNat_ofNat_of_lt (by omega)]

theorem scan_three {n m k : Nat} {rest : Bytes} (hn : 0xE0 ≤ n ∧ n < 0xF0)
    (hm : (if n = 0xE0 then 0xA0 else 0x80) ≤ m ∧ m ≤ if n = 0xED then 0x9F else 0xBF)
    (hk : 0x80 ≤ k ∧ k ≤ 0xBF) :
    scan (UInt8.ofNat n :: UInt8.ofNat m :: UInt8.ofNat k :: rest) =
      some (Char.ofNat (((n - 0xE0) * 64 + (m - 0x80)) * 64 + (k - 0x80))) :: scan rest := by
  have hlt : m < 256 := by
    have := hm.2
    split at this <;> omega
  obtain ⟨low, high, hlead, hlow, hhigh⟩ := ofByte?_three hn.1 hn.2
  have hmore : continuation low high 2 ([UInt8.ofNat m, UInt8.ofNat k] ++ rest) =
      [UInt8.ofNat m, UInt8.ofNat k] := by
    rw [List.cons_append, continuation_cons hlt (hlow ▸ hm.1) (hhigh ▸ hm.2),
      List.singleton_append, continuation_cons_more hk.1 hk.2, continuation]
  have hscan := scan_lead _ rest hlead hmore rfl
  rw [List.cons_append, List.singleton_append] at hscan
  rw [hscan, assemble, List.foldl_cons, List.foldl_cons, List.foldl_nil, toNat_ofNat_of_lt hlt,
    toNat_ofNat_of_lt (by omega)]

theorem scan_four {n m k j : Nat} {rest : Bytes} (hn : 0xF0 ≤ n ∧ n ≤ 0xF4)
    (hm : (if n = 0xF0 then 0x90 else 0x80) ≤ m ∧ m ≤ if n = 0xF4 then 0x8F else 0xBF)
    (hk : 0x80 ≤ k ∧ k ≤ 0xBF) (hj : 0x80 ≤ j ∧ j ≤ 0xBF) :
    scan (UInt8.ofNat n :: UInt8.ofNat m :: UInt8.ofNat k :: UInt8.ofNat j :: rest) =
      some (Char.ofNat ((((n - 0xF0) * 64 + (m - 0x80)) * 64 + (k - 0x80)) * 64 + (j - 0x80))) ::
        scan rest := by
  have hlt : m < 256 := by
    have := hm.2
    split at this <;> omega
  obtain ⟨low, high, hlead, hlow, hhigh⟩ := ofByte?_four hn.1 hn.2
  have hmore : continuation low high 3
      ([UInt8.ofNat m, UInt8.ofNat k, UInt8.ofNat j] ++ rest) =
      [UInt8.ofNat m, UInt8.ofNat k, UInt8.ofNat j] := by
    rw [List.cons_append, continuation_cons hlt (hlow ▸ hm.1) (hhigh ▸ hm.2), List.cons_append,
      continuation_cons_more hk.1 hk.2, List.singleton_append,
      continuation_cons_more hj.1 hj.2, continuation]
  have hscan := scan_lead _ rest hlead hmore rfl
  rw [List.cons_append, List.cons_append, List.singleton_append] at hscan
  rw [hscan, assemble, List.foldl_cons, List.foldl_cons, List.foldl_cons, List.foldl_nil,
    toNat_ofNat_of_lt hlt, toNat_ofNat_of_lt (by omega), toNat_ofNat_of_lt (by omega)]

/-- **The bytes of a character are read as that character.** -/
theorem scan_encodeChar (c : Char) (rest : Bytes) :
    scan (String.utf8EncodeChar c ++ rest) = some c :: scan rest := by
  have hvalid : c.toNat < 0xD800 ∨ 0xDFFF < c.toNat ∧ c.toNat < 0x110000 := c.valid
  -- the digits that are assembled are those that the character was cut into
  have hchar : ∀ v, v = c.toNat → Char.ofNat v = c := by
    rintro v rfl
    exact Char.ofNat_toNat c
  rw [String.utf8EncodeChar]
  simp only [Char.toNat_val]
  by_cases hone : c.toNat ≤ 127
  · rw [if_pos hone, List.singleton_append]
    have hscan := scan_lead [] rest (ofByte?_one (n := c.toNat) (by omega))
      rfl rfl
    rwa [assemble, List.foldl_nil, hchar _ rfl, List.nil_append] at hscan
  rw [if_neg hone]
  by_cases htwo : c.toNat ≤ 2047
  · rw [if_pos htwo, List.cons_append, List.singleton_append, scan_two (by omega) (by omega),
      hchar _ (by omega)]
  rw [if_neg htwo]
  by_cases hthree : c.toNat ≤ 65535
  · rw [if_pos hthree, List.cons_append, List.cons_append, List.singleton_append,
      scan_three (by omega) (by split <;> split <;> omega) (by omega), hchar _ (by omega)]
  · rw [if_neg hthree, List.cons_append, List.cons_append, List.cons_append,
      List.singleton_append, scan_four (by omega) (by split <;> split <;> omega) (by omega)
      (by omega), hchar _ (by omega)]

/-- **An encoded text is read without gaps.** -/
theorem scan_encode (text : String) : scan (encode text) = text.toList.map some := by
  unfold encode
  induction text.toList with
  | nil => rw [List.flatMap_nil, scan, List.map_nil]
  | cons c rest ih => rw [List.flatMap_cons, scan_encodeChar, ih, List.map_cons]

theorem lossy_encode (text : String) : lossy (encode text) = text := by
  rw [lossy, scan_encode, List.map_map]
  have hsame : (fun c : Char => (some c).getD '\uFFFD') = id := rfl
  rw [Function.comp_def, hsame, List.map_id, String.ofList_toList]

theorem encode_ofList_append (l m : List Char) :
    encode (String.ofList (l ++ m)) = encode (String.ofList l) ++ encode (String.ofList m) := by
  simp [encode]

/-- The bytes of characters other than the slash are no slashes. -/
theorem slash_notMem_encodeChar {c : Char} (hc : c ≠ '/') :
    Path.slash ∉ String.utf8EncodeChar c := by
  have hslash : ∀ {n : Nat}, n < 256 → n ≠ 0x2F → Path.slash ≠ UInt8.ofNat n := by
    intro n hn hne heq
    have htoNat := congrArg UInt8.toNat heq
    rw [toNat_ofNat_of_lt hn] at htoNat
    exact hne htoNat.symm
  have hne : c.toNat ≠ 0x2F := fun h => hc (Char.toNat_inj.1 h)
  rw [String.utf8EncodeChar]
  simp only [Char.toNat_val]
  split
  · rw [List.mem_singleton]
    exact hslash (by omega) hne
  · -- all other bytes are at least 0x80
    split
    · simp only [List.mem_cons, List.not_mem_nil, or_false, not_or]
      exact ⟨hslash (by omega) (by omega), hslash (by omega) (by omega)⟩
    · split
      · simp only [List.mem_cons, List.not_mem_nil, or_false, not_or]
        exact ⟨hslash (by omega) (by omega), hslash (by omega) (by omega),
          hslash (by omega) (by omega)⟩
      · simp only [List.mem_cons, List.not_mem_nil, or_false, not_or]
        exact ⟨hslash (by omega) (by omega), hslash (by omega) (by omega),
          hslash (by omega) (by omega), hslash (by omega) (by omega)⟩

end Utf8

namespace Path

/-- Where a path is cut. -/
theorem splitLast_append {directory file : Bytes} (hfile : slash ∉ file)
    (hdirectory : directory = [] ∨ ∃ front, directory = front ++ [slash]) :
    splitLast (directory ++ file) = (directory, file) := by
  have hpass : ∀ b ∈ file.reverse, (b != slash) = true := by
    intro b hb
    rw [bne_iff_ne]
    rintro rfl
    exact hfile (List.mem_reverse.1 hb)
  have hstop : directory.reverse.takeWhile (· != slash) = [] ∧
      directory.reverse.dropWhile (· != slash) = directory.reverse := by
    rcases hdirectory with rfl | ⟨front, rfl⟩
    · exact ⟨rfl, rfl⟩
    · simp
  simp only [splitLast, List.reverse_append, List.takeWhile_append_of_pos hpass,
    List.dropWhile_append_of_pos hpass, hstop.1, hstop.2, List.append_nil, List.reverse_reverse]

/-- **The file name in an encoded path is an encoded text.** -/
theorem exists_encode_splitLast (text : String) :
    ∃ file, (splitLast (Utf8.encode text)).2 = Utf8.encode file := by
  let front := text.toList.reverse.dropWhile (· != '/')
  let file := text.toList.reverse.takeWhile (· != '/')
  have hparts : text = String.ofList (front.reverse ++ file.reverse) := by
    rw [← List.reverse_append, List.takeWhile_append_dropWhile, List.reverse_reverse,
      String.ofList_toList]
  have hfile : slash ∉ Utf8.encode (String.ofList file.reverse) := by
    rw [Utf8.encode, String.toList_ofList, List.mem_flatMap]
    rintro ⟨c, hc, hmem⟩
    have hpass := List.all_eq_true.1 List.all_takeWhile c (List.mem_reverse.1 hc)
    exact Utf8.slash_notMem_encodeChar (bne_iff_ne.1 hpass) hmem
  have hdirectory : Utf8.encode (String.ofList front.reverse) = [] ∨
      ∃ start, Utf8.encode (String.ofList front.reverse) = start ++ [slash] := by
    cases hfront : front with
    | nil => exact Or.inl rfl
    | cons c rest =>
      -- the front ends with the character that the file name begins behind
      have hc : c = '/' := by
        have hhead := List.head?_dropWhile_not (· != '/') text.toList.reverse
        rw [show text.toList.reverse.dropWhile (· != '/') = c :: rest from hfront] at hhead
        simpa using hhead
      subst hc
      right
      refine ⟨Utf8.encode (String.ofList rest.reverse), ?_⟩
      rw [List.reverse_cons, Utf8.encode_ofList_append]
      rfl
  rw [hparts, Utf8.encode_ofList_append, splitLast_append hfile hdirectory]
  exact ⟨_, rfl⟩

end Path

end XmlStore
