import Mathlib.Data.List.DropRight
import Os1.Fs.CpioEncode

/-! Leading components of archive paths, and listed paths that find their file again. -/
namespace Os1.Cpio

open Elf (Image ReadFault)

/-- A leading component that names no directory. -/
inductive Lead where
  | slash
  | dotSlash
  deriving DecidableEq, Repr

def Lead.text : Lead → Image
  | .slash => [Cpio.slash]
  | .dotSlash => [dot, Cpio.slash]

def leadText (l : List Lead) : Image := l.flatMap Lead.text

/-- The longest run of leading components of a path, and the path behind it. -/
def splitLeads : Image → List Lead × Image
  | c :: d :: path =>
    if c = slash then (splitLeads (d :: path)).map (.slash :: ·) id
    else if c = dot ∧ d = slash then (splitLeads path).map (.dotSlash :: ·) id
    else ([], c :: d :: path)
  | [c] => if c = slash then ([.slash], []) else ([], [c])
  | [] => ([], [])

/-- The components from the first `./` on that comes after a `/`. -/
def fromLateDot (l : List Lead) : List Lead :=
  (l.dropWhile (fun lead => lead = .dotSlash)).dropWhile (fun lead => lead = .slash)

variable {a b name path tail : Image} {l m p q : List Lead}

@[simp] theorem leadText_nil : leadText [] = [] := rfl

@[simp] theorem leadText_slash (l : List Lead) : leadText (.slash :: l) = slash :: leadText l := rfl

@[simp] theorem leadText_dotSlash (l : List Lead) :
    leadText (.dotSlash :: l) = dot :: slash :: leadText l := rfl

theorem slash_ne_dot : slash ≠ dot := by decide

theorem splitLeads_slash (path : Image) :
    splitLeads (slash :: path) = (splitLeads path).map (.slash :: ·) id := by
  cases path with
  | nil => rfl
  | cons d path => rw [splitLeads, if_pos rfl]

theorem splitLeads_dotSlash (path : Image) :
    splitLeads (dot :: slash :: path) = (splitLeads path).map (.dotSlash :: ·) id := by
  rw [splitLeads, if_neg slash_ne_dot.symm, if_pos ⟨rfl, rfl⟩]

theorem splitLeads_leadText (l : List Lead) (path : Image) :
    splitLeads (leadText l ++ path) = (splitLeads path).map (l ++ ·) id := by
  induction l with
  | nil => rfl
  | cons lead l ih =>
    cases lead with
    | slash => rw [leadText_slash, List.cons_append, splitLeads_slash, ih]; rfl
    | dotSlash =>
      rw [leadText_dotSlash, List.cons_append, List.cons_append, splitLeads_dotSlash, ih]
      rfl

theorem splitLeads_eq (path : Image) :
    leadText (splitLeads path).1 ++ (splitLeads path).2 = path := by
  fun_induction splitLeads path with
  | case1 d path ih => simpa using ih
  | case2 c d path hc hcd ih => simpa [hcd] using ih
  | case3 c d path hc hcd => rfl
  | case4 => rfl
  | case5 => rfl
  | case6 => rfl

/-- Behind the longest run there is neither a `/` nor a `./`. -/
theorem splitLeads_rest (path : Image) :
    splitLeads (splitLeads path).2 = ([], (splitLeads path).2) ∧
      stripDotSlash (splitLeads path).2 = (splitLeads path).2 ∧
      (splitLeads path).2.dropWhile (fun c => c = slash) = (splitLeads path).2 := by
  fun_induction splitLeads path with
  | case1 d path ih => exact ih
  | case2 c d path hc hcd ih => exact ih
  | case3 c d path hc hcd => simp [splitLeads, stripDotSlash, hc, hcd]
  | case4 => exact ⟨rfl, rfl, rfl⟩
  | case5 c hc => simp [splitLeads, stripDotSlash, hc]
  | case6 => exact ⟨rfl, rfl, rfl⟩

theorem stripDotSlash_slash (path : Image) : stripDotSlash (slash :: path) = slash :: path := by
  cases path with
  | nil => rfl
  | cons d path => rw [stripDotSlash, if_neg fun h => slash_ne_dot h.1]

theorem stripDotSlash_leadText (hpath : stripDotSlash path = path) (l : List Lead) :
    stripDotSlash (leadText l ++ path) =
      leadText (l.dropWhile (fun lead => lead = .dotSlash)) ++ path := by
  induction l with
  | nil => exact hpath
  | cons lead l ih =>
    cases lead with
    | slash => exact stripDotSlash_slash _
    | dotSlash =>
      rw [leadText_dotSlash, List.cons_append, List.cons_append, stripDotSlash, if_pos ⟨rfl, rfl⟩]
      exact ih

theorem dropWhile_slash_leadText (hpath : path.dropWhile (fun c => c = slash) = path)
    (l : List Lead) :
    (leadText l ++ path).dropWhile (fun c => c = slash) =
      leadText (l.dropWhile (fun lead => lead = .slash)) ++ path := by
  induction l with
  | nil => exact hpath
  | cons lead l ih =>
    cases lead with
    | slash => exact ih
    | dotSlash => rfl

/-- Normalisation keeps the components from the first `./` after a `/` on. -/
theorem normalizedPath_eq (path : Image) :
    normalizedPath path = leadText (fromLateDot (splitLeads path).1) ++ (splitLeads path).2 := by
  obtain ⟨-, hdot, hslash⟩ := splitLeads_rest path
  conv_lhs => rw [← splitLeads_eq path]
  rw [normalizedPath, stripDotSlash_leadText hdot, dropWhile_slash_leadText hslash]
  rfl

theorem leadText_injective (h : leadText l ++ a = leadText m ++ a) : l = m := by
  have hsplit := congrArg splitLeads h
  rw [splitLeads_leadText, splitLeads_leadText] at hsplit
  exact List.append_cancel_right (congrArg Prod.fst hsplit)

theorem leadText_noNul (l : List Lead) (h : 0#8 ∉ a) : 0#8 ∉ leadText l ++ a := by
  induction l with
  | nil => exact h
  | cons lead l ih =>
    cases lead with
    | slash => simpa [slash] using ih
    | dotSlash => simpa [slash, dot] using ih

/-- Two runs of leading components before the same text are ignored exactly when they agree from
the first `./` after a `/` on, counting what the text itself starts with. Paths that are taken for
equal are equal behind their longest such runs. -/
theorem leads_ignored_iff (a b s t : Image) (p q : List Lead) (ha : 0#8 ∉ a) (hb : 0#8 ∉ b) :
    (cpioNewcPathsEqual (leadText p ++ a ++ 0#8 :: s) (leadText q ++ a ++ 0#8 :: t) = .ok true ↔
      fromLateDot (p ++ (splitLeads a).1) = fromLateDot (q ++ (splitLeads a).1)) ∧
    (cpioNewcPathsEqual (a ++ 0#8 :: s) (b ++ 0#8 :: t) = .ok true →
      (splitLeads a).2 = (splitLeads b).2) := by
  refine ⟨?_, fun h => ?_⟩
  · rw [cpioNewcPathsEqual_string (leadText_noNul p ha) (leadText_noNul q ha)]
    simp only [normalizedPath_eq, splitLeads_leadText, Except.ok.injEq, decide_eq_true_eq]
    exact ⟨leadText_injective, fun h => by rw [Prod.map_fst, Prod.map_fst, h]; rfl⟩
  · rw [cpioNewcPathsEqual_string ha hb, Except.ok.injEq, decide_eq_true_eq, normalizedPath_eq,
      normalizedPath_eq] at h
    have hsplit := congrArg (fun path => (splitLeads path).2) h
    simpa [splitLeads_leadText, (splitLeads_rest a).1, (splitLeads_rest b).1] using hsplit

theorem leads_ignored_before_x :
    0#8 ∉ [0x78#8] ∧
      cpioNewcPathsEqual (leadText [.dotSlash, .slash] ++ [0x78#8] ++ [0#8])
        (leadText [.slash] ++ [0x78#8] ++ [0#8]) = .ok true :=
  ⟨by decide, (leads_ignored_iff [0x78#8] [0x78#8] [] [] _ _ (by decide) (by decide)).1.mpr rfl⟩

/-- The paths `/./x` and `x` are taken for different. -/
theorem dotSlash_after_slash_kept :
    0#8 ∉ [0x78#8] ∧
      cpioNewcPathsEqual (leadText [.slash, .dotSlash] ++ [0x78#8] ++ [0#8])
        (leadText [] ++ [0x78#8] ++ [0#8]) = .ok false := by
  decide

/-! ## Listed paths -/

/-- `destination[index] = c;` -/
def writeByte (destination : Image) (index : Nat) (c : BitVec 8) : Except ReadFault Image :=
  if index < destination.length then .ok (destination.set index c) else .error .outOfBounds

/-- The loop that copies the name, up to its terminator or the last place of the destination. -/
def copyName (destinationSize : Nat) :
    (normalized destination : Image) → (index : Nat) → Except ReadFault (Image × Nat)
  | [], destination, index =>
    if index + 1 < destinationSize then .error .outOfBounds else .ok (destination, index)
  | c :: normalized, destination, index =>
    if index + 1 < destinationSize ∧ c ≠ 0#8 then
      (writeByte destination index c).bind fun destination =>
        copyName destinationSize normalized destination (index + 1)
    else .ok (destination, index)

/-- The loop that fills `count` places from `index` on with zeros. -/
def fillZero : (count : Nat) → (destination : Image) → (index : Nat) → Except ReadFault Image
  | 0, destination, _ => .ok destination
  | count + 1, destination, index =>
    (writeByte destination index 0#8).bind fun destination =>
      fillZero count destination (index + 1)

/-- The slash and the name, where there is one; the place behind them. -/
def copySlashed (destination : Image) (destinationSize : Nat) :
    (normalized : Option Image) → Except ReadFault (Image × Nat)
  | none => .ok (destination, 0)
  | some normalized =>
    (readByte normalized 0).bind fun first =>
      if first = 0#8 then .ok (destination, 0)
      else if 0 < destinationSize - 1 then
        (writeByte destination 0 slash).bind fun destination =>
          copyName destinationSize normalized destination 1
      else copyName destinationSize normalized destination 0

/-- `normalize_archive_path` of a pointer that may be null. -/
def normalizeNullable : Option Image → Except ReadFault (Option Image)
  | none => .ok none
  | some path => (normalizeArchivePath path).map some

/-- The destination after the call. -/
def copyCpioNewcPath (destination : Option Image) (destinationSize : Nat)
    (archiveName : Option Image) : Except ReadFault (Option Image) :=
  match destination with
  | none => .ok none
  | some destination =>
    if destinationSize = 0 then .ok (some destination)
    else
      (normalizeNullable archiveName).bind fun normalized =>
        (copySlashed destination destinationSize normalized).bind fun r =>
          (fillZero (destinationSize - r.2) r.1 r.2).map some

/-- The text that the copy is made of: the normalised name behind a slash. -/
def listedPath (name : Image) : Image :=
  if normalizedPath name = [] then [] else slash :: normalizedPath name

theorem listedPath_noNul (hname : 0#8 ∉ name) : 0#8 ∉ listedPath name := by
  unfold listedPath
  split
  · simp
  · simpa [slash] using normalizedPath_noNul hname

theorem listedPath_length (name : Image) :
    (listedPath name).length ≤ (normalizedPath name).length + 1 := by
  unfold listedPath
  split <;> simp

/-- The slash in front is the only one that normalisation takes away again. -/
theorem normalizedPath_listedPath (name : Image) :
    normalizedPath (listedPath name) = normalizedPath name := by
  unfold listedPath
  split
  · rename_i h
    rw [h]
    rfl
  · have hslash : (normalizedPath name).dropWhile (fun c => c = slash) = normalizedPath name :=
      List.dropWhile_idempotent _ _
    rw [normalizedPath, stripDotSlash_slash, List.dropWhile_cons_of_pos (by simp), hslash]

theorem writeByte_append (w r : Image) (c d : BitVec 8) :
    writeByte (w ++ c :: r) w.length d = .ok (w ++ d :: r) := by
  rw [writeByte, if_pos (by simp)]
  simp

theorem copyName_string (w r tail : Image) (size : Nat) (hb : 0#8 ∉ b) (hsize : w.length < size)
    (hr : size ≤ w.length + r.length) :
    copyName size (b ++ 0#8 :: tail) (w ++ r) w.length =
      .ok (w ++ b.take (size - 1 - w.length) ++ r.drop (b.take (size - 1 - w.length)).length,
        w.length + (b.take (size - 1 - w.length)).length) := by
  induction b generalizing w r with
  | nil => simp [copyName]
  | cons c b ih =>
    rw [List.cons_append, copyName]
    by_cases hlast : w.length + 1 < size
    · have hc : c ≠ 0#8 := fun h => hb (by simp [h])
      cases r with
      | nil => simp at hr; omega
      | cons d r =>
        have hstep := ih (w ++ [c]) r (fun hm => hb (by simp [hm])) (by simpa using hlast)
          (by simp at hr ⊢; omega)
        obtain ⟨k, hk⟩ : ∃ k, size - 1 - w.length = k + 1 := ⟨size - 2 - w.length, by omega⟩
        have hk' : size - 1 - (w ++ [c]).length = k := by simp; omega
        rw [if_pos ⟨hlast, hc⟩, writeByte_append, Except.bind, hk]
        rw [hk'] at hstep
        simpa [Nat.add_assoc, Nat.add_comm 1] using hstep
    · have hzero : size - 1 - w.length = 0 := by omega
      rw [if_neg (fun h => hlast h.1), hzero]
      simp

theorem fillZero_append (w r : Image) (count : Nat) (h : count ≤ r.length) :
    fillZero count (w ++ r) w.length = .ok (w ++ List.replicate count 0#8 ++ r.drop count) := by
  induction count generalizing w r with
  | zero => simp [fillZero]
  | succ count ih =>
    cases r with
    | nil => simp at h
    | cons d r =>
      have hstep := ih (w ++ [0#8]) r (by simpa using h)
      rw [fillZero, writeByte_append, Except.bind]
      simpa [List.replicate_succ, List.append_assoc] using hstep

section Copy

variable {destination : Image} {size : Nat} (hname : 0#8 ∉ name) (hpos : 0 < size)
  (hsize : size ≤ destination.length)
include hname hpos hsize

theorem copySlashed_string (tail : Image) :
    copySlashed destination size (some (normalizedPath name ++ 0#8 :: tail)) =
      .ok ((listedPath name).take (size - 1) ++
          destination.drop ((listedPath name).take (size - 1)).length,
        ((listedPath name).take (size - 1)).length) := by
  have hnul := normalizedPath_noNul hname
  unfold listedPath
  cases hpath : normalizedPath name with
  | nil => simp [copySlashed, readByte, Except.bind]
  | cons c rest =>
    rw [hpath] at hnul
    have hc : c ≠ 0#8 := fun h => hnul (by simp [h])
    simp only [copySlashed, List.cons_append, readByte, Except.bind, if_neg hc, reduceCtorEq,
      if_false]
    by_cases hone : 0 < size - 1
    · cases destination with
      | nil => simp at hsize; omega
      | cons d destination =>
        have hcopy := copyName_string [slash] destination tail size hnul (by simp; omega)
          (by simp at hsize ⊢; omega)
        have hwrite : writeByte (d :: destination) 0 slash = .ok (slash :: destination) :=
          writeByte_append [] destination d slash
        obtain ⟨k, hk⟩ : ∃ k, size - 1 = k + 1 := ⟨size - 2, by omega⟩
        simp only [hwrite, hk] at hcopy ⊢
        simpa [Nat.add_comm 1] using hcopy
    · have hcopy := copyName_string [] destination tail size hnul (by simpa using hpos)
        (by simpa using hsize)
      rw [if_neg hone]
      simpa [show size - 1 = 0 by omega] using hcopy

/-- The copied path: as much of the listed path as fits before a terminator, then zeros. -/
theorem copyCpioNewcPath_string (tail : Image) :
    copyCpioNewcPath (some destination) size (some (name ++ 0#8 :: tail)) =
      .ok (some ((listedPath name).take (size - 1) ++
        List.replicate (size - ((listedPath name).take (size - 1)).length) 0#8 ++
        destination.drop size)) := by
  rw [copyCpioNewcPath, if_neg (by omega), normalizeNullable, normalizeArchivePath_string hname]
  simp only [Except.map, Except.bind, copySlashed_string hname hpos hsize tail]
  have hshort : ((listedPath name).take (size - 1)).length ≤ size - 1 := List.length_take_le _ _
  generalize (listedPath name).take (size - 1) = text at hshort ⊢
  rw [fillZero_append text _ _ (by rw [List.length_drop]; omega), List.drop_drop,
    Nat.add_sub_cancel' (by omega)]

end Copy

/-- The copy fills its destination with the listed path, a terminator and zeros, and where the
listed path fits, the archive name and the copy are taken for equal. -/
theorem listed_path_finds_file (name tail destination : Image) (size : Nat) (hname : 0#8 ∉ name)
    (hsize : size ≤ destination.length) :
    ∃ path : Image, path.length = size ∧
      copyCpioNewcPath (some destination) size (some (name ++ 0#8 :: tail)) =
        .ok (some (path ++ destination.drop size)) ∧
      (0 < size → ∃ text zeros, path = text ++ List.replicate (zeros + 1) 0#8 ∧ 0#8 ∉ text ∧
        text = (listedPath name).take (size - 1)) ∧
      ((slash :: normalizedPath name).length + 1 ≤ size → ∀ rest,
        cpioNewcPathsEqual (name ++ 0#8 :: tail) (path ++ rest) = .ok true) := by
  rcases Nat.eq_zero_or_pos size with rfl | hpos
  · exact ⟨[], rfl, rfl, by simp, by simp⟩
  have hcopy := copyCpioNewcPath_string hname hpos hsize tail
  have hshort : ((listedPath name).take (size - 1)).length ≤ size - 1 := List.length_take_le _ _
  refine ⟨_, ?_, hcopy, fun _ => ?_, fun hfits rest => ?_⟩
  · rw [List.length_append, List.length_replicate]
    omega
  · refine ⟨_, size - 1 - ((listedPath name).take (size - 1)).length, ?_, fun hm => ?_, rfl⟩
    · congr 2
      omega
    · exact listedPath_noNul hname (List.mem_of_mem_take hm)
  · have hwhole : (listedPath name).take (size - 1) = listedPath name := by
      refine List.take_of_length_le ((listedPath_length name).trans ?_)
      rw [List.length_cons] at hfits
      omega
    obtain ⟨k, hk⟩ : ∃ k, size - (listedPath name).length = k + 1 :=
      ⟨size - 1 - (listedPath name).length, by rw [hwhole] at hshort; omega⟩
    rw [hwhole, hk, List.replicate_succ, List.append_assoc, List.cons_append,
      cpioNewcPathsEqual_string hname (listedPath_noNul hname), normalizedPath_listedPath,
      decide_eq_true rfl]

/-- The name `./x` in a destination of four bytes. -/
theorem listed_path_of_dot_x_finds_file :
    0#8 ∉ [dot, slash, 0x78#8] ∧
      copyCpioNewcPath (some [1#8, 2#8, 3#8, 4#8]) 4 (some [dot, slash, 0x78#8, 0#8]) =
        .ok (some [slash, 0x78#8, 0#8, 0#8]) ∧
      ∃ path : Image, path.length = 4 ∧ ∀ rest,
        cpioNewcPathsEqual [dot, slash, 0x78#8, 0#8] (path ++ rest) = .ok true := by
  refine ⟨by decide, by decide, ?_⟩
  obtain ⟨path, hlength, -, -, hfound⟩ := listed_path_finds_file [dot, slash, 0x78#8] []
    [1#8, 2#8, 3#8, 4#8] 4 (by decide) (by decide)
  exact ⟨path, hlength, hfound (by decide)⟩

end Os1.Cpio
