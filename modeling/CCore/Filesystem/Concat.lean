import CCore.Filesystem.Model
import CCore.Library.Joining
import Mathlib.Data.List.DropRight

/-!
# What fits into a path

`ccfs_path_concat` drops the separators at the end of each component, writes the others in the
platform's spelling, and joins what is left with single separators, as long as it fits.  One test
decides whether a component fits: its length, what is in the buffer already, and one more byte have
to be *less* than the size.

For every component but the first this is right, since a separator and the NUL come on top.  The
first has no separator, so a first component that would fill the buffer exactly is turned away.
And at the end the NUL is written whether or not there is room for it: with a size of zero there is
none.  `joinsWhatFits_iff` says that nothing else goes wrong.
-/

namespace CCore
namespace Filesystem

open Buffers Joining

variable {p : Platform} {size : ℕ}

/-! ## One component -/

/-- A character in the spelling of the platform. -/
def native (p : Platform) (c : UInt8) : UInt8 := if isPathSep c then pathSep p else c

/-- **A component as it should come into the path**: without the separators at its end, and with
the others replaced. -/
def cleaned (p : Platform) (comp : CString) : List UInt8 :=
  (comp.chars.rdropWhile isPathSep).map (native p)

theorem pathComponentLengthFrom_eq (comp : List UInt8) {n : ℕ} (hn : n ≤ comp.length) :
    pathComponentLengthFrom comp n = ((comp.take n).rdropWhile isPathSep).length := by
  induction n with
  | zero => rfl
  | succ n ih =>
    have hlt : n < comp.length := hn
    rw [pathComponentLengthFrom, List.getElem?_eq_getElem hlt, Option.any_some,
      List.take_add_one, List.getElem?_eq_getElem hlt, Option.toList_some, List.rdropWhile_concat]
    split
    · exact ih hlt.le
    · rw [List.length_append, List.length_take_of_le hlt.le, List.length_singleton]

/-- `path_component_length` counts what is kept of a component. -/
theorem pathComponentLength_eq (comp : CString) :
    pathComponentLength comp = (comp.chars.rdropWhile isPathSep).length := by
  rw [pathComponentLength, pathComponentLengthFrom_eq _ le_rfl, List.take_length]

theorem length_cleaned (p : Platform) (comp : CString) :
    (cleaned p comp).length = pathComponentLength comp := by
  rw [cleaned, List.length_map, pathComponentLength_eq]

/-- What `pathcpy` copies of a component. -/
theorem map_take_pathComponentLength (p : Platform) (comp : CString) :
    (comp.chars.take (pathComponentLength comp)).map (native p) = cleaned p comp := by
  rw [cleaned, pathComponentLength_eq,
    ← List.prefix_iff_eq_take.mp (List.rdropWhile_prefix isPathSep comp.chars)]

/-- **`pathcpy` writes behind what has been written**, if there is room. -/
theorem pathcpy_filled {n : ℕ} {src text out : List UInt8} (hfilled : Filled size text out)
    (hsrc : n ≤ src.length) (hroom : text.length + n ≤ size) :
    ∃ out', pathcpy p n src text.length out = some out' ∧
      Filled size (text ++ (src.take n).map (native p)) out' := by
  induction n generalizing src text out with
  | zero => exact ⟨out, rfl, by rwa [List.take_zero, List.map_nil, List.append_nil]⟩
  | succ n ih =>
    cases src with
    | nil => exact absurd hsrc (Nat.not_succ_le_zero n)
    | cons c src =>
      obtain ⟨out₁, hout₁, hfilled₁⟩ := hfilled.write (by omega) (native p c)
      have hlength : (text ++ [native p c]).length = text.length + 1 := List.length_append
      obtain ⟨out₂, hout₂, hfilled₂⟩ := ih hfilled₁ (Nat.le_of_succ_le_succ hsrc)
        (by rw [hlength]; omega)
      refine ⟨out₂, ?_, ?_⟩
      · rw [hlength] at hout₂
        rw [native] at hout₁
        rw [pathcpy, hout₁, Option.bind_some]
        exact hout₂
      · rw [List.take_succ_cons, List.map_cons, List.append_cons]
        exact hfilled₂

/-- A component that fits is copied whole. -/
theorem pathcpy_component {text out : List UInt8} (hfilled : Filled size text out)
    (comp : CString) (hroom : text.length + pathComponentLength comp ≤ size) :
    ∃ out', pathcpy p (pathComponentLength comp) comp.chars text.length out = some out' ∧
      Filled size (text ++ cleaned p comp) out' := by
  have hsrc : pathComponentLength comp ≤ comp.chars.length := by
    rw [pathComponentLength_eq]
    exact (List.rdropWhile_prefix isPathSep comp.chars).length_le
  obtain ⟨out', hout', hfilled'⟩ := pathcpy_filled (p := p) hfilled hsrc hroom
  exact ⟨out', hout', map_take_pathComponentLength p comp ▸ hfilled'⟩

/-! ## The loop -/

/-- The path of some components. -/
def pathOf (p : Platform) (parts : List (List UInt8)) : List UInt8 := joined (pathSep p) parts

/-- **How the loop ends.**  It has written the path of the components `taken`, and either there
are no others or the next one has not passed the test. -/
structure Ended (p : Platform) (size : ℕ) (components : List CString)
    (before : List (List UInt8)) (result : ℕ × List UInt8) (taken : List CString) : Prop where
  split : ∃ rest, components = taken ++ rest ∧ ∀ next after, rest = next :: after →
    size ≤ (pathOf p (before ++ taken.map (cleaned p))).length + (cleaned p next).length + 1
  head : result.1 = (pathOf p (before ++ taken.map (cleaned p))).length
  room : result.1 < size
  filled : Filled size (pathOf p (before ++ taken.map (cleaned p))) result.2

/-- A component that does not pass the test ends the loop. -/
theorem concatLoop_stop {comp : CString} {isFirst : Bool} {head : ℕ} {out : List UInt8}
    (hstop : size ≤ head + pathComponentLength comp + 1) (components : List CString) :
    concatLoop p size (comp :: components) isFirst head out = some (head, out) := by
  rw [concatLoop, if_pos hstop]

/-- **A component that passes the test** is written behind the others, and the loop goes on behind
it. -/
theorem concatLoop_next {before : List (List UInt8)} {comp : CString} {out : List UInt8}
    (hfilled : Filled size (pathOf p before) out)
    (hfits : (pathOf p before).length + pathComponentLength comp + 1 < size)
    (components : List CString) :
    ∃ out', concatLoop p size (comp :: components) before.isEmpty (pathOf p before).length out =
        concatLoop p size components false (pathOf p (before ++ [cleaned p comp])).length out' ∧
      Filled size (pathOf p (before ++ [cleaned p comp])) out' ∧
      (pathOf p (before ++ [cleaned p comp])).length < size := by
  rw [concatLoop, if_neg (Nat.not_le.mpr hfits)]
  cases before with
  | nil =>
    have hfirst : pathOf p ([] ++ [cleaned p comp]) = pathOf p [] ++ cleaned p comp :=
      joined_singleton
    obtain ⟨out', hout', hfilled'⟩ := pathcpy_component hfilled comp (by omega)
    rw [hfirst, List.length_append, length_cleaned]
    refine ⟨out', ?_, hfilled', by omega⟩
    rw [List.isEmpty_nil, if_pos rfl, hout', Option.bind_some]
  | cons first before =>
    have hmore : pathOf p (first :: before ++ [cleaned p comp]) =
        pathOf p (first :: before) ++ [pathSep p] ++ cleaned p comp := by
      rw [pathOf, joined_concat (List.cons_ne_nil _ _), List.append_cons]
      rfl
    have hlength : (pathOf p (first :: before) ++ [pathSep p]).length =
        (pathOf p (first :: before)).length + 1 := List.length_append
    obtain ⟨out₁, hout₁, hfilled₁⟩ := hfilled.write (by omega) (pathSep p)
    obtain ⟨out₂, hout₂, hfilled₂⟩ := pathcpy_component hfilled₁ comp (by omega)
    rw [hlength] at hout₂
    rw [hmore, List.length_append, hlength, length_cleaned]
    refine ⟨out₂, ?_, hfilled₂, by omega⟩
    rw [List.isEmpty_cons, if_neg Bool.false_ne_true, hout₁, Option.bind_some]
    dsimp only
    rw [hout₂, Option.bind_some]

/-- **Every run of the loop ends so**, whatever is in the buffer already. -/
theorem concatLoop_ended (components : List CString) {before : List (List UInt8)}
    {out : List UInt8} (hfilled : Filled size (pathOf p before) out)
    (hroom : (pathOf p before).length < size) :
    ∃ result taken, concatLoop p size components before.isEmpty (pathOf p before).length out =
      some result ∧ Ended p size components before result taken := by
  induction components generalizing before out with
  | nil =>
    refine ⟨_, [], rfl, ⟨[], rfl, fun next after hnext => nomatch hnext⟩, ?_, hroom, ?_⟩
    · rw [List.map_nil, List.append_nil]
    · rwa [List.map_nil, List.append_nil]
  | cons comp components ih =>
    by_cases hstop : size ≤ (pathOf p before).length + pathComponentLength comp + 1
    · refine ⟨_, [], concatLoop_stop hstop components, ⟨comp :: components, rfl, ?_⟩, ?_, hroom, ?_⟩
      · intro next after hnext
        obtain ⟨rfl, -⟩ := List.cons.inj hnext
        rwa [List.map_nil, List.append_nil, length_cleaned]
      · rw [List.map_nil, List.append_nil]
      · rwa [List.map_nil, List.append_nil]
    · obtain ⟨out', hloop, hfilled', hroom'⟩ :=
        concatLoop_next hfilled (Nat.not_le.mp hstop) components
      obtain ⟨result, taken, hrest, ⟨rest, hsplit, hnext⟩, hhead, hlt, hend⟩ := ih hfilled' hroom'
      have hempty : (before ++ [cleaned p comp]).isEmpty = false :=
        List.isEmpty_eq_false_iff.mpr (List.append_ne_nil_of_right_ne_nil _ (List.cons_ne_nil _ _))
      rw [hempty] at hrest
      rw [← List.append_cons, ← List.map_cons] at hnext hhead hend
      exact ⟨result, comp :: taken, hloop.trans hrest,
        ⟨rest, congrArg (comp :: ·) hsplit, hnext⟩, hhead, hlt, hend⟩

/-! ## What is returned -/

/-- **The function joins what fits.**  It stays within the buffer; and unless the buffer has no
bytes at all, it leaves the path of the longest prefix that fits there, with its NUL, and returns
the length of the path. -/
def JoinsWhatFits (p : Platform) (out : List UInt8) (components : List CString) : Prop :=
  ∃ head out', ccfsPathConcat p out components = some (head, out') ∧ out'.length = out.length ∧
    (1 ≤ out.length → ∃ before,
      LongestFit (pathSep p) out.length (components.map (cleaned p)) before ∧
        head = (pathOf p before).length ∧ pathOf p before ++ [0] <+: out')

/-- In a buffer of no bytes there is no room for the NUL. -/
theorem ccfsPathConcat_nil (components : List CString) :
    ccfsPathConcat p [] components = none := by
  cases components with
  | nil => rfl
  | cons comp components =>
    rw [ccfsPathConcat, concatLoop, List.length_nil, if_pos (Nat.zero_le _)]
    rfl

/-- **In a buffer of at least one byte** the function leaves the path of the components that the
loop has taken. -/
theorem ccfsPathConcat_ended {out : List UInt8} (components : List CString)
    (hout : 1 ≤ out.length) :
    ∃ taken out' result, Ended p out.length components [] result taken ∧
      ccfsPathConcat p out components = some (result.1, out') ∧ out'.length = out.length ∧
      pathOf p (taken.map (cleaned p)) ++ [0] <+: out' := by
  have hstart : Filled out.length (pathOf p []) out := Filled.nil rfl
  obtain ⟨⟨head, out₁⟩, taken, hloop, hended⟩ := concatLoop_ended components hstart hout
  have hfilled := hended.filled
  have hhead := hended.head
  have hroom := hended.room
  rw [List.nil_append] at hfilled hhead
  dsimp only at hhead hroom hfilled
  rw [hhead] at hroom
  obtain ⟨out₂, hwrite, hfilled₂⟩ := hfilled.write hroom 0
  refine ⟨taken, out₂, (head, out₁), hended, ?_, hfilled₂.length, hfilled₂.isPrefix⟩
  have hloop' : concatLoop p out.length components true 0 out = some (head, out₁) := hloop
  rw [ccfsPathConcat, hloop', Option.bind_some]
  dsimp only
  rw [hhead, hwrite, Option.map_some]

/-- If the loop has taken a component, the components it has taken are the longest prefix that
fits. -/
theorem Ended.longestFit {components taken : List CString} {result : ℕ × List UInt8}
    (h : Ended p size components [] result taken) (htaken : taken ≠ []) :
    LongestFit (pathSep p) size (components.map (cleaned p)) (taken.map (cleaned p)) := by
  obtain ⟨rest, rfl, hnext⟩ := h.split
  have hroom : (pathOf p (taken.map (cleaned p))).length < size := h.head ▸ h.room
  refine longestFit_of_next List.map_append hroom fun part parts hparts => ?_
  obtain ⟨next, after, rfl, rfl, rfl⟩ := List.map_eq_cons_iff.mp hparts
  have hfull : size ≤ (pathOf p (taken.map (cleaned p))).length + (cleaned p next).length + 1 :=
    hnext next after rfl
  have hne : taken.map (cleaned p) ≠ [] := mt List.map_eq_nil_iff.mp htaken
  calc size ≤ (pathOf p (taken.map (cleaned p))).length + (cleaned p next).length + 1 := hfull
    _ = (joined (pathSep p) (taken.map (cleaned p) ++ [cleaned p next])).length := by
      rw [joined_concat hne, List.length_append, List.length_cons, ← Nat.add_assoc]
      rfl

/-- **A first component that the test turns away** leaves the empty path. -/
theorem ccfsPathConcat_of_full {out : List UInt8} {comp : CString} (rest : List CString)
    (hout : 1 ≤ out.length) (hfull : out.length ≤ pathComponentLength comp + 1) :
    ∃ out', ccfsPathConcat p out (comp :: rest) = some (0, out') ∧ out'.length = out.length ∧
      [0] <+: out' := by
  have hstart : Filled out.length [] out := Filled.nil rfl
  obtain ⟨out', hwrite, hfilled⟩ := hstart.write hout 0
  refine ⟨out', ?_, hfilled.length, hfilled.isPrefix⟩
  have hstop : 0 + pathComponentLength comp + 1 ≥ out.length := by rwa [Nat.zero_add]
  rw [ccfsPathConcat, concatLoop, if_pos hstop, Option.bind_some]
  dsimp only
  rw [List.length_nil] at hwrite
  rw [hwrite, Option.map_some]

/-- A first component that passes the test is taken. -/
theorem Ended.ne_nil {comp : CString} {rest taken : List CString} {result : ℕ × List UInt8}
    (h : Ended p size (comp :: rest) [] result taken)
    (hroom : pathComponentLength comp + 1 < size) : taken ≠ [] := by
  rintro rfl
  obtain ⟨rest', hrest, hnext⟩ := h.split
  have hle := hnext comp rest hrest.symm
  rw [List.map_nil, List.append_nil, pathOf, joined_nil, List.length_nil, Nat.zero_add,
    length_cleaned] at hle
  exact absurd hle (Nat.not_le.mpr hroom)

/-- If the first component does not fit even without a separator, nothing fits. -/
theorem longestFit_nil {first : List UInt8} {parts : List (List UInt8)} (hsize : 1 ≤ size)
    (hfirst : size ≤ first.length) : LongestFit (pathSep p) size (first :: parts) [] := by
  refine longestFit_of_next (List.nil_append _).symm hsize fun next rest hnext => ?_
  obtain ⟨rfl, -⟩ := List.cons.inj hnext
  rwa [List.nil_append, joined_singleton]

/-- In a single byte there is room for the NUL, and for a first component of which nothing is
kept. -/
theorem longestFit_one (parts : List (List UInt8)) (hsize : size = 1) :
    LongestFit (pathSep p) size ([] :: parts) [[]] := by
  refine longestFit_of_next List.singleton_append.symm ?_ fun next rest _ => ?_
  · rw [joined_singleton, hsize]
    exact Nat.one_pos
  · rw [joined_concat (List.cons_ne_nil _ _), List.length_append, List.length_cons, hsize]
    omega

/-- Where the first component fits, the longest prefix that fits is at least as long. -/
theorem LongestFit.le_length {first : List UInt8} {parts before : List (List UInt8)}
    (h : LongestFit (pathSep p) size (first :: parts) before) (hfirst : first.length < size) :
    first.length ≤ (pathOf p before).length := by
  have hone : 1 ≤ before.length :=
    h.longest [first] ⟨parts, rfl⟩ (by rwa [joined_singleton])
  cases before with
  | nil => exact absurd hone (Nat.not_succ_le_zero 0)
  | cons part before =>
    obtain ⟨rfl, -⟩ := List.cons_prefix_cons.mp h.isPrefix
    exact length_joined_le_cons

/-- Of no components, everything fits. -/
theorem joinsWhatFits_nil {out : List UInt8} (hout : 1 ≤ out.length) : JoinsWhatFits p out [] := by
  have hstart : Filled out.length [] out := Filled.nil rfl
  obtain ⟨out', hwrite, hfilled⟩ := hstart.write hout 0
  refine ⟨0, out', congrArg (Option.map _) hwrite, hfilled.length, fun _ =>
    ⟨[], ?_, rfl, hfilled.isPrefix⟩⟩
  exact longestFit_of_next rfl hout fun next rest hnext => nomatch hnext

section FirstComponent

variable {out : List UInt8} {comp : CString} (rest : List CString)

/-- **A first component with room to spare** is taken, and the test is right for the others. -/
theorem joinsWhatFits_of_lt (hlt : pathComponentLength comp + 1 < out.length) :
    JoinsWhatFits p out (comp :: rest) := by
  obtain ⟨taken, out', result, hended, hconcat, hout', hprefix⟩ :=
    ccfsPathConcat_ended (p := p) (comp :: rest) (Nat.one_le_of_lt hlt)
  have hhead := hended.head
  rw [List.nil_append] at hhead
  exact ⟨result.1, out', hconcat, hout', fun _ =>
    ⟨_, hended.longestFit (hended.ne_nil hlt), hhead, hprefix⟩⟩

/-- A first component that is too long is turned away, and nothing fits. -/
theorem joinsWhatFits_of_gt (hout : 1 ≤ out.length)
    (hgt : out.length < pathComponentLength comp + 1) : JoinsWhatFits p out (comp :: rest) := by
  obtain ⟨out', hconcat, hout', hprefix⟩ := ccfsPathConcat_of_full (p := p) rest hout hgt.le
  have hfirst : out.length ≤ (cleaned p comp).length := by
    rw [length_cleaned]
    exact Nat.le_of_lt_succ hgt
  exact ⟨0, out', hconcat, hout', fun _ => ⟨[], longestFit_nil hout hfirst, rfl, hprefix⟩⟩

/-- Of a first component nothing may be kept; then a buffer of one byte is right for it. -/
theorem joinsWhatFits_of_eq_one (hempty : pathComponentLength comp = 0) (hone : out.length = 1) :
    JoinsWhatFits p out (comp :: rest) := by
  have hfull : out.length ≤ pathComponentLength comp + 1 := by omega
  obtain ⟨out', hconcat, hout', hprefix⟩ := ccfsPathConcat_of_full (p := p) rest hone.ge hfull
  have hnil : cleaned p comp = [] :=
    List.eq_nil_of_length_eq_zero ((length_cleaned p comp).trans hempty)
  have hfit := longestFit_one (p := p) (rest.map (cleaned p)) hone
  rw [← hnil] at hfit
  refine ⟨0, out', hconcat, hout', fun _ => ⟨_, hfit, ?_, ?_⟩⟩
  · rw [hnil]
    rfl
  · rw [hnil]
    exact hprefix

/-- **A first component that would fill the buffer** is turned away, although it fits. -/
theorem not_joinsWhatFits_of_eq (hkept : pathComponentLength comp ≠ 0)
    (hfull : pathComponentLength comp + 1 = out.length) : ¬ JoinsWhatFits p out (comp :: rest) := by
  rintro ⟨head, out', hconcat, -, hjoins⟩
  have hout : 1 ≤ out.length := by omega
  obtain ⟨before, hfit, hhead, -⟩ := hjoins hout
  obtain ⟨out'', hother, -, -⟩ := ccfsPathConcat_of_full (p := p) rest hout hfull.ge
  have hzero : 0 = head := congrArg Prod.fst (Option.some.inj (hother.symm.trans hconcat))
  have hlength := length_cleaned p comp
  have hle := LongestFit.le_length hfit (by omega)
  omega

end FirstComponent

/-- **Exactly where the function joins what fits.**  The buffer has a byte, and the first component
does not fill it exactly with the NUL behind it, except for a component of which nothing is
kept. -/
theorem joinsWhatFits_iff (p : Platform) (out : List UInt8) (components : List CString) :
    JoinsWhatFits p out components ↔
      out.length ≠ 0 ∧ ∀ comp rest, components = comp :: rest → pathComponentLength comp ≠ 0 →
        pathComponentLength comp + 1 ≠ out.length := by
  rcases Nat.eq_zero_or_pos out.length with hzero | hpos
  · refine iff_of_false ?_ fun h => h.1 hzero
    rintro ⟨head, out', hconcat, -, -⟩
    rw [List.length_eq_zero_iff.mp hzero, ccfsPathConcat_nil] at hconcat
    exact nomatch hconcat
  cases components with
  | nil => exact iff_of_true (joinsWhatFits_nil hpos) ⟨hpos.ne', fun comp rest hnil => nomatch hnil⟩
  | cons comp rest =>
    constructor
    · intro hjoins
      refine ⟨hpos.ne', fun first others hfirst hkept hfull => ?_⟩
      obtain ⟨rfl, rfl⟩ := List.cons.inj hfirst
      exact not_joinsWhatFits_of_eq rest hkept hfull hjoins
    · rintro ⟨-, hfull⟩
      rcases lt_trichotomy (pathComponentLength comp + 1) out.length with hlt | heq | hgt
      · exact joinsWhatFits_of_lt rest hlt
      · by_cases hempty : pathComponentLength comp = 0
        · exact joinsWhatFits_of_eq_one rest hempty (by omega)
        · exact absurd heq (hfull comp rest rfl hempty)
      · exact joinsWhatFits_of_gt rest hpos hgt

/-- **In four bytes** there would be room for `abc`, and nothing is joined. -/
theorem not_joinsWhatFits_abc :
    ¬ JoinsWhatFits .posix [120, 120, 120, 120] [⟨[97, 98, 99], by decide⟩] := by
  rintro ⟨head, out', hconcat, -, hjoins⟩
  have hrun : ccfsPathConcat .posix [120, 120, 120, 120] [⟨[97, 98, 99], by decide⟩] =
      some (0, [0, 120, 120, 120]) := by decide
  have hzero : 0 = head := congrArg Prod.fst (Option.some.inj (hrun.symm.trans hconcat))
  obtain ⟨before, hfit, hhead, -⟩ := hjoins (by decide)
  have hle : 3 ≤ (pathOf .posix before).length := LongestFit.le_length hfit (by decide)
  omega

end Filesystem
end CCore
