/-
# Arrays that contain themselves

`Store.pieces` goes no deeper than there are arrays.  `Store.rendering` has no such bound:

    an array on the path from the outermost one    `[...]`
    any other array                                `[`, its elements one path further, `]`

It ends because each step further leaves fewer arrays that are not on the path.  Both
write the same: `pieces_eq_rendering`.

`Store.Writes` says how a value is written piece by piece to a writer that may fail, with
no path but a mark on each array that is being written.  An array is marked before its
first piece and unmarked after its last one, or after the one that could not be written.
Whatever is written, and however that ends, the marks are then what they were, and what
stands in the output is the rendering, as far as the writer took it: `writes_iff`.  So an
array that occurs twice, or is printed again, is written in full again.
-/
import Lox.Machine
import Mathlib.Data.Finset.Card
import Mathlib.Data.Finset.Range
import Mathlib.Data.Finset.SDiff

namespace Lox

/-- The pieces of a value that is no array. -/
def Value.plainPieces : Value → List String
  | .nil => ["nil"]
  | .boolean b => [if b then "true" else "false"]
  | .number x => [Number.text x]
  | .string t => [t]
  | .callable c => c.pieces
  | .instance i => ["<", i.ofClass.name.lexeme, " instance>"]
  | .module m => ["<module ", m.name, ">"]
  | .array _ => []

/-- The piece before an element: nothing before the first one. -/
def separator (first : Bool) : List String := if first then [] else [", "]

namespace Store

/-! ## The rendering -/

/-- How many arrays are not on a path. -/
def offPath (s : Store) (path : List ArrayId) : Nat :=
  (Finset.range s.arrays.size \ path.toFinset).card

theorem lt_of_mem_elements {s : Store} {a : ArrayId} {v : Value}
    (h : v ∈ (s.elements a).toList) : a < s.arrays.size := by
  refine Nat.lt_of_not_le fun hge => ?_
  simp [elements, Array.getElem?_eq_none hge] at h

theorem offPath_cons_lt {s : Store} {path : List ArrayId} {a : ArrayId}
    (ha : a < s.arrays.size) (hpath : a ∉ path) : s.offPath (a :: path) < s.offPath path := by
  refine Finset.card_lt_card ⟨fun b hb => ?_, fun hsub => ?_⟩
  · simp only [Finset.mem_sdiff, List.mem_toFinset, List.mem_cons, not_or] at hb ⊢
    exact ⟨hb.1, hb.2.2⟩
  · have ha' : a ∈ Finset.range s.arrays.size \ (a :: path).toFinset :=
      hsub (by simpa using ⟨ha, hpath⟩)
    simp at ha'

/-- The pieces of a value inside the arrays of `path`. -/
def rendering (s : Store) (path : List ArrayId) : Value → List String
  | .array a =>
    if a ∈ path then ["[...]"]
    else "[" :: separated ", "
      ((s.elements a).toList.attach.map fun ⟨v, _⟩ => s.rendering (a :: path) v) ++ ["]"]
  | v => v.plainPieces
termination_by s.offPath path
decreasing_by exact offPath_cons_lt (lt_of_mem_elements ‹_›) ‹_›

variable {s : Store} {path : List ArrayId}

theorem rendering_array (a : ArrayId) : s.rendering path (.array a) =
    if a ∈ path then ["[...]"]
    else "[" :: separated ", " ((s.elements a).toList.map (s.rendering (a :: path))) ++ ["]"] := by
  rw [rendering, List.attach_map_val (f := s.rendering (a :: path))]

theorem rendering_plain {v : Value} (h : ∀ a, v ≠ .array a) :
    s.rendering path v = v.plainPieces := by
  cases v with
  | array a => exact absurd rfl (h a)
  | _ => simp only [rendering]

/-! ## As deep as there are arrays -/

/-- A path that was not gone twice is no longer than there are arrays. -/
theorem length_le_of_nodup (hnodup : path.Nodup) (hpath : ∀ a ∈ path, a < s.arrays.size) :
    path.length ≤ s.arrays.size := by
  have hsub : path.toFinset ⊆ Finset.range s.arrays.size := fun a ha =>
    Finset.mem_range.mpr (hpath a (List.mem_toFinset.mp ha))
  have hcard := Finset.card_le_card hsub
  rwa [List.toFinset_card_of_nodup hnodup, Finset.card_range] at hcard

/-- The bound on the depth is never met. -/
theorem piecesWithin_eq_rendering (depth : Nat) (v : Value) (hnodup : path.Nodup)
    (hpath : ∀ a ∈ path, a < s.arrays.size)
    (hdepth : path.length + depth = s.arrays.size + 1) :
    s.piecesWithin depth path v = s.rendering path v := by
  induction depth generalizing path v with
  | zero =>
      have hle := length_le_of_nodup hnodup hpath
      omega
  | succ depth ih =>
      cases v with
      | array a =>
          rw [piecesWithin, rendering_array]
          split
          · rfl
          · rename_i hnew
            have helements : ∀ v ∈ (s.elements a).toList,
                s.piecesWithin depth (a :: path) v = s.rendering (a :: path) v := fun v hv =>
              ih v (List.nodup_cons.mpr ⟨hnew, hnodup⟩)
                (List.forall_mem_cons.mpr ⟨lt_of_mem_elements hv, hpath⟩)
                (by simp only [List.length_cons]; omega)
            rw [List.map_congr_left helements]
      | _ => simp only [piecesWithin, rendering, Value.plainPieces]

theorem pieces_eq_rendering (s : Store) (v : Value) : s.pieces v = s.rendering [] v :=
  piecesWithin_eq_rendering _ v List.nodup_nil (List.forall_mem_nil _) (Nat.zero_add _)

/-! ## Writing with marks -/

mutual

/-- Writing a value to an output, while the arrays of `marks` are being written: the marks
afterwards, the output, and why the writer failed if it did. -/
inductive Writes (s : Store) :
    List ArrayId → Output → Value → List ArrayId → Output × Option String → Prop
  | plain {marks o v} : (∀ a, v ≠ .array a) → Writes s marks o v marks (o.writeAll v.plainPieces)
  | busy {marks o a} : a ∈ marks → Writes s marks o (.array a) marks (o.writeAll ["[...]"])
  | shut {marks o a o₁ reason} : a ∉ marks → o.writeAll ["["] = (o₁, some reason) →
      Writes s marks o (.array a) ((a :: marks).erase a) (o₁, some reason)
  | cut {marks o a o₁ marks' o₂ reason} : a ∉ marks → o.writeAll ["["] = (o₁, none) →
      WritesEach s (a :: marks) o₁ true (s.elements a).toList marks' (o₂, some reason) →
      Writes s marks o (.array a) (marks'.erase a) (o₂, some reason)
  | full {marks o a o₁ marks' o₂} : a ∉ marks → o.writeAll ["["] = (o₁, none) →
      WritesEach s (a :: marks) o₁ true (s.elements a).toList marks' (o₂, none) →
      Writes s marks o (.array a) (marks'.erase a) (o₂.writeAll ["]"])

/-- Writing elements, with a separator before each but the first of the array. -/
inductive WritesEach (s : Store) :
    List ArrayId → Output → Bool → List Value → List ArrayId → Output × Option String → Prop
  | nil {marks o first} : WritesEach s marks o first [] marks (o, none)
  | shut {marks o first v vs o₁ reason} : o.writeAll (separator first) = (o₁, some reason) →
      WritesEach s marks o first (v :: vs) marks (o₁, some reason)
  | cut {marks o first v vs o₁ marks' o₂ reason} :
      o.writeAll (separator first) = (o₁, none) → Writes s marks o₁ v marks' (o₂, some reason) →
      WritesEach s marks o first (v :: vs) marks' (o₂, some reason)
  | next {marks o first v vs o₁ marks' o₂ marks'' r} :
      o.writeAll (separator first) = (o₁, none) → Writes s marks o₁ v marks' (o₂, none) →
      WritesEach s marks' o₂ false vs marks'' r →
      WritesEach s marks o first (v :: vs) marks'' r

end

end Store

/-- What is written after something else is written if that was. -/
theorem Output.writeAll_append (o : Output) (ps qs : List String) :
    o.writeAll (ps ++ qs) =
      match o.writeAll ps with
      | (o', none) => o'.writeAll qs
      | (o', some reason) => (o', some reason) := by
  induction ps generalizing o with
  | nil => rfl
  | cons p ps ih =>
      simp only [List.cons_append, Output.writeAll]
      rcases o.write p with ⟨o', _ | reason⟩
      · exact ih o'
      · rfl

/-- The pieces of elements, with a separator before each but the first of the array. -/
def piecesOfEach (first : Bool) : List (List String) → List String
  | [] => []
  | ps :: rest => separator first ++ (ps ++ piecesOfEach false rest)

theorem separated_eq (parts : List (List String)) :
    separated ", " parts = piecesOfEach true parts := by
  have hrest : ∀ ps rest, separated ", " (ps :: rest) = ps ++ piecesOfEach false rest := by
    intro ps rest
    induction rest generalizing ps with
    | nil => simp [separated, piecesOfEach]
    | cons qs rest ih =>
        rw [separated, ih qs, piecesOfEach]
        · simp [separator]
        · simp
  cases parts with
  | nil => rfl
  | cons ps rest => simp [hrest, piecesOfEach, separator]

namespace Store

variable {s : Store}

theorem rendering_free {path : List ArrayId} {a : ArrayId} (h : a ∉ path) :
    s.rendering path (.array a) = ["["] ++
      (piecesOfEach true ((s.elements a).toList.map (s.rendering (a :: path))) ++ ["]"]) := by
  rw [rendering_array, if_neg h, separated_eq]
  rfl

mutual

theorem Writes.eq {marks marks' : List ArrayId} {o : Output} {v : Value}
    {r : Output × Option String} :
    s.Writes marks o v marks' r → marks' = marks ∧ r = o.writeAll (s.rendering marks v)
  | .plain hv => ⟨rfl, by rw [rendering_plain hv]⟩
  | .busy ha => ⟨rfl, by rw [rendering_array, if_pos ha]⟩
  | .shut ha hopen => by
      refine ⟨List.erase_cons_head .., ?_⟩
      rw [rendering_free ha, Output.writeAll_append, hopen]
  | .cut ha hopen heach => by
      obtain ⟨hmarks, hr⟩ := heach.eq
      refine ⟨by rw [hmarks, List.erase_cons_head], ?_⟩
      rw [rendering_free ha, Output.writeAll_append, hopen]
      dsimp only
      rw [Output.writeAll_append, ← hr]
  | .full ha hopen heach => by
      obtain ⟨hmarks, hr⟩ := heach.eq
      refine ⟨by rw [hmarks, List.erase_cons_head], ?_⟩
      rw [rendering_free ha, Output.writeAll_append, hopen]
      dsimp only
      rw [Output.writeAll_append, ← hr]

theorem WritesEach.eq {marks marks' : List ArrayId} {o : Output} {first : Bool}
    {vs : List Value} {r : Output × Option String} : s.WritesEach marks o first vs marks' r →
      marks' = marks ∧ r = o.writeAll (piecesOfEach first (vs.map (s.rendering marks)))
  | .nil => ⟨rfl, rfl⟩
  | .shut hsep => by
      refine ⟨rfl, ?_⟩
      rw [List.map_cons, piecesOfEach, Output.writeAll_append, hsep]
  | .cut hsep hv => by
      obtain ⟨hmarks, hr⟩ := hv.eq
      refine ⟨hmarks, ?_⟩
      rw [List.map_cons, piecesOfEach, Output.writeAll_append, hsep]
      dsimp only
      rw [Output.writeAll_append, ← hr]
  | .next hsep hv hvs => by
      obtain ⟨hmarks, hr⟩ := hv.eq
      obtain ⟨hmarks', hr'⟩ := hvs.eq
      refine ⟨hmarks'.trans hmarks, ?_⟩
      rw [List.map_cons, piecesOfEach, Output.writeAll_append, hsep]
      dsimp only
      rw [Output.writeAll_append, ← hr, hr', hmarks]

end

/-- Elements can be written if each of them can. -/
theorem exists_writesEach {marks : List ArrayId} {vs : List Value}
    (h : ∀ v ∈ vs, ∀ o, ∃ marks' r, s.Writes marks o v marks' r) (o : Output) (first : Bool) :
    ∃ marks' r, s.WritesEach marks o first vs marks' r := by
  induction vs generalizing o first with
  | nil => exact ⟨_, _, .nil⟩
  | cons v vs ih =>
      obtain ⟨hv, hvs⟩ := List.forall_mem_cons.mp h
      rcases hsep : o.writeAll (separator first) with ⟨o₁, _ | reason⟩
      · obtain ⟨marks', ⟨o₂, failed⟩, hwrites⟩ := hv o₁
        cases failed with
        | some reason => exact ⟨_, _, .cut hsep hwrites⟩
        | none =>
            obtain ⟨rfl, -⟩ := hwrites.eq
            obtain ⟨marks'', r, heach⟩ := ih hvs o₂ false
            exact ⟨_, _, .next hsep hwrites heach⟩
      · exact ⟨_, _, .shut hsep⟩

/-- Every value can be written, whatever is being written already. -/
theorem exists_writes (s : Store) (marks : List ArrayId) (v : Value) (o : Output) :
    ∃ marks' r, s.Writes marks o v marks' r := by
  induction hn : s.offPath marks using Nat.strongRecOn generalizing marks v o with
  | ind n ih =>
      by_cases hplain : ∀ a, v ≠ .array a
      · exact ⟨_, _, .plain hplain⟩
      · simp only [ne_eq, not_forall, not_not] at hplain
        obtain ⟨a, rfl⟩ := hplain
        by_cases ha : a ∈ marks
        · exact ⟨_, _, .busy ha⟩
        · rcases hopen : o.writeAll ["["] with ⟨o₁, _ | reason⟩
          · -- with one more mark there is less left to mark
            have helements : ∀ u ∈ (s.elements a).toList, ∀ o,
                ∃ marks' r, s.Writes (a :: marks) o u marks' r := fun u hu o =>
              ih _ (hn ▸ offPath_cons_lt (lt_of_mem_elements hu) ha) (a :: marks) u o rfl
            obtain ⟨marks', ⟨o₂, failed⟩, heach⟩ := exists_writesEach helements o₁ true
            cases failed with
            | some reason => exact ⟨_, _, .cut ha hopen heach⟩
            | none => exact ⟨_, _, .full ha hopen heach⟩
          · exact ⟨_, _, .shut ha hopen⟩

/-- A value is written in one way, which leaves the marks as they were. -/
theorem writes_iff {marks marks' : List ArrayId} {o : Output} {v : Value}
    {r : Output × Option String} :
    s.Writes marks o v marks' r ↔
      marks' = marks ∧ r = o.writeAll (s.rendering marks v) := by
  refine ⟨Writes.eq, ?_⟩
  rintro ⟨hmarks, hr⟩
  obtain ⟨marks'', r', h⟩ := exists_writes s marks v o
  obtain ⟨hmarks', hr'⟩ := h.eq
  rw [hmarks', hr'] at h
  rwa [hmarks, hr]

end Store

/-! ## The theorem -/

/-- Whatever arrays contain, a value has a text: the recursive rendering, in which `[...]`
stands for an array that is on the path already, and all elements for any other.  Writing
it, with marks on the arrays that are being written, always comes to an end, and leaves the
marks as they were, also if the writer fails on the way.  Printing it changes nothing of
the store. -/
theorem printing_total (s : Store) (v : Value) :
    s.pieces v = s.rendering [] v ∧
    (∀ path, s.rendering path v =
      match v with
      | .array a =>
        if a ∈ path then ["[...]"]
        else "[" :: separated ", " ((s.elements a).toList.map (s.rendering (a :: path))) ++ ["]"]
      | v => v.plainPieces) ∧
    (∀ marks o marks' r, s.Writes marks o v marks' r ↔
      marks' = marks ∧ r = o.writeAll (s.rendering marks v)) ∧
    ∀ (stack : List Frame) (st : State),
      let m := Machine.printValue v stack { st with store := s }
      m.state.store = s ∧
        m.state.output = (st.output.writeAll (s.rendering [] v ++ ["\n"])).1 := by
  refine ⟨s.pieces_eq_rendering v, fun path => ?_, fun _ _ _ _ => Store.writes_iff,
    fun stack st => ?_⟩
  · split
    · exact Store.rendering_array _
    · exact Store.rendering_plain ‹_›
  simp only [Machine.printValue, Store.pieces_eq_rendering]
  rcases st.output.writeAll (s.rendering [] v ++ ["\n"]) with ⟨o, _ | _⟩ <;> exact ⟨rfl, rfl⟩

/-- An array that holds another one twice, which holds the first. -/
example : Store.display ⟨#[], #[], #[#[.array 1, .array 1], #[.array 0]], 0⟩ (.array 0) =
    "[[[...]], [[...]]]" := by
  cbv

end Lox
