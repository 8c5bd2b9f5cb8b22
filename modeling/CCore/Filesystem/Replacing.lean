import CCore.Filesystem.Concat
import CCore.Filesystem.Trimming

/-!
# Joining, cutting and joining again

`ccfs_path_rtrim_i` is there to go up from a path that `ccfs_path_concat` has made, and to join
something else to what is left.  Each of the two has its flaws at the edges of a buffer and of a
string (`joinsWhatFits_iff`, `trimsAtBoundary_iff`).  Away from the edges they belong together:

* cutting `numDirs` takes the last `numDirs + 1` components off the path that was joined, if these
  have no separator inside, and leaves the others with a separator behind them;
* joining drops this separator again, so that joining more components to what is left gives the path
  of the first components with the new ones in the place of those cut off.

What has been joined is read off the path by its separators only.  So the one thing to know of a
join is how many separators it has (`seps_pathOf`), and which of them is the one with a given number
behind it (`SepAt.unique`).
-/

namespace CCore
namespace Filesystem

open Buffers Joining

variable {p : Platform} {out : List UInt8} {numDirs : ℕ}

/-! ## Separators of a join -/

theorem isPathSep_pathSep (p : Platform) : isPathSep (pathSep p) = true := by
  cases p <;> rfl

/-- **The separators behind a place tell where it is.** -/
theorem SepAt.unique {chars front back front' back' : List UInt8} {c c' : UInt8} {k : ℕ}
    (h : SepAt chars k front back c) (h' : SepAt chars k front' back' c') :
    front' = front ∧ c' = c := by
  have hsame : front ++ c :: back = front' ++ c' :: back' := h.split.symm.trans h'.split
  -- of two places the earlier has one more separator behind it
  have hlate : ∀ {front front' back back' : List UInt8} {c c' : UInt8}, isPathSep c' →
      seps back = seps back' → front ++ c :: back = front' ++ c' :: back' →
      front'.length ≤ front.length := by
    intro front front' back back' c c' hc' hseps heq
    by_contra hlt
    have hfront : front ++ [c] <+: front ++ c :: back := ⟨back, (List.append_cons _ _ _).symm⟩
    have hfront' : front' <+: front ++ c :: back := heq ▸ List.prefix_append _ _
    have hle : (front ++ [c]).length ≤ front'.length := by
      rw [List.length_append, List.length_singleton]
      omega
    obtain ⟨more, hmore⟩ := List.prefix_of_prefix_length_le hfront hfront' hle
    rw [← hmore, List.append_assoc, List.append_assoc, List.singleton_append,
      List.append_cancel_left_eq, List.cons.injEq] at heq
    have hcount := congrArg seps heq.2
    rw [seps_append, seps_cons_of_sep hc'] at hcount
    omega
  have hback : seps back = seps back' := h.behind.trans h'.behind.symm
  have hlength : front'.length = front.length :=
    le_antisymm (hlate h'.sep hback hsame) (hlate h.sep hback.symm hsame.symm)
  obtain ⟨hfront, htail⟩ := List.append_inj hsame.symm hlength
  exact ⟨hfront, (List.cons.inj htail).1⟩

/-! ## Components -/

theorem native_native (p : Platform) (c : UInt8) : native p (native p c) = native p c := by
  rw [native, native]
  split
  · rw [if_pos (isPathSep_pathSep p)]
  · rfl

theorem native_ne_zero {c : UInt8} (hc : c ≠ 0) : native p c ≠ 0 := by
  rw [native]
  split
  · cases p <;> decide
  · exact hc

theorem nul_notMem_cleaned (p : Platform) (comp : CString) : 0 ∉ cleaned p comp := by
  intro hmem
  obtain ⟨c, hc, hzero⟩ := List.mem_map.mp hmem
  have hin : c ∈ comp.chars := (List.rdropWhile_prefix isPathSep comp.chars).subset hc
  exact native_ne_zero (ne_of_mem_of_not_mem hin comp.nul_notMem) hzero

/-- A join has no NUL, and is spelled as the platform spells it. -/
theorem mem_pathOf {components : List CString} {c : UInt8}
    (h : c ∈ pathOf p (components.map (cleaned p))) : c ≠ 0 ∧ native p c = c := by
  rcases mem_joined h with rfl | ⟨part, hpart, hc⟩
  · rw [native, if_pos (isPathSep_pathSep p)]
    cases p <;> exact ⟨by decide, rfl⟩
  · obtain ⟨comp, -, rfl⟩ := List.mem_map.mp hpart
    obtain ⟨d, hd, rfl⟩ := List.mem_map.mp hc
    exact ⟨ne_of_mem_of_not_mem hc (nul_notMem_cleaned p comp), native_native p d⟩

theorem nul_notMem_pathOf (p : Platform) (components : List CString) :
    0 ∉ pathOf p (components.map (cleaned p)) := fun hmem => (mem_pathOf hmem).1 rfl

/-- The last character that is kept of a component is no separator. -/
theorem exists_last_cleaned {comp : CString} (h : pathComponentLength comp ≠ 0) :
    ∃ front c, cleaned p comp = front ++ [c] ∧ ¬isPathSep c = true := by
  have hne : comp.chars.rdropWhile isPathSep ≠ [] := by
    rw [pathComponentLength_eq] at h
    exact List.ne_nil_of_length_pos (Nat.pos_of_ne_zero h)
  have hlast := List.rdropWhile_last_not isPathSep comp.chars hne
  refine ⟨(comp.chars.rdropWhile isPathSep).dropLast.map (native p),
    (comp.chars.rdropWhile isPathSep).getLast hne, ?_, hlast⟩
  rw [cleaned]
  conv_lhs => rw [← List.dropLast_append_getLast hne]
  rw [List.map_append, List.map_singleton, native, if_neg hlast]

/-! ## Joining everything -/

/-- **A path that fits with a byte to spare** is joined whole. -/
theorem ccfsPathConcat_whole {components : List CString}
    (hroom : (pathOf p (components.map (cleaned p))).length + 1 < out.length) :
    ∃ out', ccfsPathConcat p out components =
        some ((pathOf p (components.map (cleaned p))).length, out') ∧
      pathOf p (components.map (cleaned p)) ++ [0] <+: out' := by
  obtain ⟨taken, out', result, hended, hconcat, -, hprefix⟩ :=
    ccfsPathConcat_ended (p := p) components (by omega : 1 ≤ out.length)
  have hall : taken = components := by
    obtain ⟨rest, hsplit, -⟩ := hended.split
    cases components with
    | nil => exact (List.append_eq_nil_iff.mp hsplit.symm).1
    | cons comp components =>
      have hfirst : pathComponentLength comp + 1 < out.length := by
        have hle : (cleaned p comp).length ≤
            (joined (pathSep p) (cleaned p comp :: components.map (cleaned p))).length :=
          length_joined_le_cons
        rw [length_cleaned] at hle
        rw [List.map_cons, pathOf] at hroom
        omega
      have hfit := hended.longestFit (hended.ne_nil hfirst)
      have hlength := hfit.longest _ (List.prefix_refl _) (Nat.lt_of_succ_lt hroom)
      rw [List.length_map, List.length_map, hsplit, List.length_append] at hlength
      have hnil : rest = [] := List.eq_nil_of_length_eq_zero (by omega)
      rw [hsplit, hnil, List.append_nil]
  have hhead := hended.head
  rw [List.nil_append, hall] at hhead
  rw [hall] at hprefix
  exact ⟨out', hhead ▸ hconcat, hprefix⟩

/-! ## Cutting -/

/-- A length that is an `int`. -/
theorem intLength_eq {path : CString} (h : path.chars.length < 2 ^ 31) :
    intLength path = path.chars.length := by
  rw [intLength, Int32.toInt_ofNat']
  exact Int.bmod_eq_of_le (by omega) (by norm_num [Int32.size]; omega)

/-- **The components behind the last `numDirs + 1` separators are cut off.** -/
theorem ccfsPathRtrimI_pathOf {path : CString} {kept dropped : List (List UInt8)}
    (hpath : path.chars = pathOf p (kept ++ dropped)) (hlength : path.chars.length < 2 ^ 31)
    (hkept : kept ≠ []) (hne : pathOf p kept ≠ []) (hdropped : dropped.length = numDirs + 1)
    (hparts : ∀ part ∈ dropped, seps part = 0) :
    ∃ buffer, ccfsPathRtrimI path numDirs = some buffer ∧
      stringIn buffer = pathOf p kept ++ [pathSep p] := by
  have hnil : dropped ≠ [] := List.ne_nil_of_length_eq_add_one hdropped
  have hsplit : path.chars = pathOf p kept ++ pathSep p :: pathOf p dropped :=
    hpath.trans (joined_append hkept hnil)
  have hcount : seps (pathOf p dropped) = numDirs := by
    have hjoined := countP_joined (isPathSep_pathSep p) hnil hparts
    rw [hdropped] at hjoined
    exact Nat.succ.inj hjoined
  have hint := intLength_eq hlength
  have hseen : seen path = path.chars := by
    rw [seen, hint]
    exact List.take_length
  have hpos : 1 ≤ intLength path := by
    rw [hint, hsplit, List.length_append, List.length_cons]
    omega
  have hmany : numDirs + 1 ≤ seps (seen path).tail := by
    rw [hseen, hsplit, List.tail_append_of_ne_nil hne, seps_append,
      seps_cons_of_sep (isPathSep_pathSep p), hcount]
    exact Nat.le_add_left _ _
  obtain ⟨front, back, c, buffer, hat, hrtrim, hstring⟩ := ccfsPathRtrimI_of_many hpos hmany
  have hat' : SepAt (seen path) numDirs (pathOf p kept) (pathOf p dropped) (pathSep p) :=
    ⟨hseen.trans hsplit, isPathSep_pathSep p, hcount⟩
  obtain ⟨rfl, rfl⟩ := hat'.unique hat
  exact ⟨buffer, hrtrim, hstring⟩

/-! ## Joining again -/

/-- A join ends as its last component does. -/
theorem exists_last_pathOf (kept : List CString) {last : CString}
    (hlast : pathComponentLength last ≠ 0) :
    ∃ front c, pathOf p ((kept ++ [last]).map (cleaned p)) = front ++ [c] ∧
      ¬isPathSep c = true := by
  obtain ⟨front, c, hfront, hc⟩ := exists_last_cleaned (p := p) hlast
  rw [List.map_append, List.map_singleton, hfront]
  by_cases hnil : kept.map (cleaned p) = []
  · exact ⟨front, c, by rw [hnil, List.nil_append, pathOf, joined_singleton], hc⟩
  · refine ⟨pathOf p (kept.map (cleaned p)) ++ pathSep p :: front, c, ?_, hc⟩
    rw [pathOf, joined_concat hnil, List.append_assoc, List.cons_append]
    rfl

/-- **The separator that is left is dropped** when the path is joined again. -/
theorem cleaned_of_cut {kept : List CString} {last left : CString}
    (hlast : pathComponentLength last ≠ 0)
    (hleft : left.chars = pathOf p ((kept ++ [last]).map (cleaned p)) ++ [pathSep p]) :
    cleaned p left = pathOf p ((kept ++ [last]).map (cleaned p)) := by
  have hkept : (pathOf p ((kept ++ [last]).map (cleaned p))).rdropWhile isPathSep =
      pathOf p ((kept ++ [last]).map (cleaned p)) := by
    obtain ⟨front, c, hends, hc⟩ := exists_last_pathOf (p := p) kept hlast
    rw [hends, List.rdropWhile_concat_neg _ _ _ hc]
  rw [cleaned, hleft, List.rdropWhile_concat_pos _ _ _ (isPathSep_pathSep p), hkept]
  exact (List.map_congr_left fun c hc => (mem_pathOf hc).2).trans (List.map_id' _)

/-- What is joined to the path that is left comes behind the components that it has left. -/
theorem pathOf_cut {kept more : List CString} {last left : CString}
    (hlast : pathComponentLength last ≠ 0)
    (hleft : left.chars = pathOf p ((kept ++ [last]).map (cleaned p)) ++ [pathSep p]) :
    pathOf p ((left :: more).map (cleaned p)) =
      pathOf p ((kept ++ last :: more).map (cleaned p)) := by
  have hkept : (kept ++ [last]).map (cleaned p) ≠ [] :=
    mt List.map_eq_nil_iff.mp (List.append_ne_nil_of_right_ne_nil _ (List.cons_ne_nil _ _))
  have hsplit : (kept ++ last :: more).map (cleaned p) =
      (kept ++ [last]).map (cleaned p) ++ more.map (cleaned p) := by
    rw [← List.map_append, ← List.append_cons]
  rw [List.map_cons, cleaned_of_cut hlast hleft, hsplit]
  by_cases hmore : more.map (cleaned p) = []
  · rw [hmore, List.append_nil, pathOf, joined_singleton]
  · rw [pathOf, joined_cons hmore, pathOf, pathOf, joined_append hkept hmore]

theorem stringIn_eq {text buffer : List UInt8} (h : text ++ [0] <+: buffer)
    (hnul : 0 ∉ text) : stringIn buffer = text := by
  obtain ⟨rest, rfl⟩ := h
  rw [stringIn, List.append_assoc, List.singleton_append]
  exact takeWhile_ne_zero_append hnul rest

/-- **Going up and down again.**  A path is joined; its last `numDirs + 1` components, which have no
separator inside, are cut off; and others are joined to what is left.  The path that comes out is
the one of the first components and the new ones.  This needs that the last of the components that
are kept is not made of separators only, that the length of the path is an `int`, and that both
joins leave a byte of their buffer free. -/
theorem ccfs_path_replaces_last (p : Platform) (kept dropped more : List CString) (last : CString)
    (out₁ out₂ : List UInt8) (numDirs : ℕ) (hlast : pathComponentLength last ≠ 0)
    (hdropped : dropped.length = numDirs + 1)
    (hparts : ∀ comp ∈ dropped, seps (cleaned p comp) = 0)
    (hint : (pathOf p ((kept ++ last :: dropped).map (cleaned p))).length < 2 ^ 31)
    (hroom₁ : (pathOf p ((kept ++ last :: dropped).map (cleaned p))).length + 1 < out₁.length)
    (hroom₂ : (pathOf p ((kept ++ last :: more).map (cleaned p))).length + 1 < out₂.length) :
    ∃ head₁ buffer₁ path buffer left head₂ buffer₂,
      ccfsPathConcat p out₁ (kept ++ last :: dropped) = some (head₁, buffer₁) ∧
      path.chars = stringIn buffer₁ ∧
      ccfsPathRtrimI path numDirs = some buffer ∧ left.chars = stringIn buffer ∧
      left.chars = pathOf p ((kept ++ [last]).map (cleaned p)) ++ [pathSep p] ∧
      ccfsPathConcat p out₂ (left :: more) = some (head₂, buffer₂) ∧
      stringIn buffer₂ = pathOf p ((kept ++ last :: more).map (cleaned p)) := by
  have hnul := nul_notMem_pathOf p (kept ++ last :: dropped)
  have hnul' : 0 ∉ pathOf p ((kept ++ [last]).map (cleaned p)) ++ [pathSep p] := by
    refine List.not_mem_append (nul_notMem_pathOf p _) ?_
    cases p <;> decide
  let path : CString := ⟨pathOf p ((kept ++ last :: dropped).map (cleaned p)), hnul⟩
  let left : CString := ⟨pathOf p ((kept ++ [last]).map (cleaned p)) ++ [pathSep p], hnul'⟩
  have hsplit : path.chars =
      pathOf p ((kept ++ [last]).map (cleaned p) ++ dropped.map (cleaned p)) := by
    rw [← List.map_append, List.append_assoc, List.singleton_append]
  have hkept : (kept ++ [last]).map (cleaned p) ≠ [] :=
    mt List.map_eq_nil_iff.mp (List.append_ne_nil_of_right_ne_nil _ (List.cons_ne_nil _ _))
  have hne : pathOf p ((kept ++ [last]).map (cleaned p)) ≠ [] := by
    obtain ⟨front, c, hends, -⟩ := exists_last_pathOf (p := p) kept hlast
    rw [hends]
    exact List.append_ne_nil_of_right_ne_nil _ (List.cons_ne_nil _ _)
  obtain ⟨buffer₁, hconcat₁, hbuffer₁⟩ := ccfsPathConcat_whole hroom₁
  obtain ⟨buffer, hrtrim, hbuffer⟩ := ccfsPathRtrimI_pathOf hsplit hint hkept hne
    ((List.length_map _).trans hdropped) (List.forall_mem_map.mpr hparts)
  have hcut : pathOf p ((left :: more).map (cleaned p)) =
      pathOf p ((kept ++ last :: more).map (cleaned p)) := pathOf_cut hlast rfl
  rw [← hcut] at hroom₂ ⊢
  obtain ⟨buffer₂, hconcat₂, hbuffer₂⟩ := ccfsPathConcat_whole hroom₂
  exact ⟨_, buffer₁, path, buffer, left, _, buffer₂, hconcat₁,
    (stringIn_eq hbuffer₁ hnul).symm, hrtrim, hbuffer.symm, rfl, hconcat₂,
    stringIn_eq hbuffer₂ (nul_notMem_pathOf p _)⟩

/-- From `a/b` to `a/c`. -/
theorem ccfs_path_replaces_last_a_b : ∃ path buffer left head₂ buffer₂,
    path.chars = [97, 47, 98] ∧ ccfsPathRtrimI path 0 = some buffer ∧
      left.chars = stringIn buffer ∧
      ccfsPathConcat .posix (List.replicate 16 7) [left, ⟨[99], by decide⟩] =
        some (head₂, buffer₂) ∧ stringIn buffer₂ = [97, 47, 99] := by
  obtain ⟨head₁, buffer₁, path, buffer, left, head₂, buffer₂, hconcat₁, hpath, hrtrim, hleft, -,
      hconcat₂, hstring⟩ :=
    ccfs_path_replaces_last .posix [] [⟨[98], by decide⟩] [⟨[99], by decide⟩] ⟨[97], by decide⟩
      (List.replicate 16 7) (List.replicate 16 7) 0 (by decide) rfl (by decide) (by decide)
      (by decide) (by decide)
  have hrun : (ccfsPathConcat .posix (List.replicate 16 7)
      [⟨[97], by decide⟩, ⟨[98], by decide⟩]).map (stringIn ∘ Prod.snd) = some [97, 47, 98] := by
    decide
  rw [List.nil_append] at hconcat₁
  rw [hconcat₁, Option.map_some, Option.some_inj] at hrun
  exact ⟨path, buffer, left, head₂, buffer₂, hpath.trans hrun, hrtrim, hleft, hconcat₂,
    hstring.trans (by decide)⟩

end Filesystem
end CCore
