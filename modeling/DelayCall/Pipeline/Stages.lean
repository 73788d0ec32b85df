import DelayCall.Pipeline.Reverse
import DelayCall.Pipeline.Runs

/-!
# `main`'s pipeline

`main` chains `validationStage`, `transformationStage`, `enrichmentStage` and
`formattingStage` over the items of `generateData`.  A `DataItem`'s `Data`
field is an `interface{}`, and `Data` lists the dynamic values the stages store
in it.  The library calls the stages make are parameters: case mapping and
trimming, float parsing, `math.Pow`, the clock, and `%v`.

Only `validationStage` drops items.  No stage changes an item's `ID`, and after
validation none changes its `Value`.  No stage panics, since `reverseString`
stays in range.  So every run of `main` ends with the test values whose cleaned
form is not empty, in order.
-/

namespace PipelineDemo

/-- The dynamic values the stages store in `DataItem.Data`. -/
inductive Data where
  | nil
  | float (x : Float)
  | string (s : String)
  /-- `enrichmentStage`'s `map[string]interface{}`, by its keys. -/
  | map (id : Int) (original : String) (processed : Data) (timestamp : Int) (processingMs : Int)

structure DataItem where
  id : Int
  value : String
  data : Data

/-- What `main` prints of an item besides its data: its `ID` and `Value`. -/
def DataItem.key (item : DataItem) : Int × String := (item.id, item.value)

/-- The library calls the stages make. -/
structure Lib where
  /-- `strings.TrimSpace(strings.ToLower(value))` -/
  trimLower : String -> String
  /-- `strconv.ParseFloat(value, 64)`, `none` on an error -/
  parseFloat : String -> Option Float
  /-- `math.Pow` -/
  pow : Float -> Float -> Float
  /-- `time.Now().Unix()` when `enrichmentStage` handles the item of this `ID` -/
  now : Int -> Int
  /-- `%v` of a `Data` value -/
  formatV : Data -> String

variable (lib : Lib)

/-- The body of `validationStage`'s loop. -/
def validationStage (item : DataItem) : Option (Option DataItem) :=
  let item := { item with value := lib.trimLower item.value }
  if item.value ≠ "" then some (some item) else some none

/-- The body of `transformationStage`'s loop. -/
def transformationStage (item : DataItem) : Option (Option DataItem) :=
  match lib.parseFloat item.value with
  | some num => some (some { item with data := .float (lib.pow num 2) })
  | none => (reverseString item.value).map fun reversed => some { item with data := .string reversed }

/-- The body of `enrichmentStage`'s loop. -/
def enrichmentStage (item : DataItem) : Option (Option DataItem) :=
  some (some { item with data := .map item.id item.value item.data (lib.now item.id) 450 })

/-- The body of `formattingStage`'s loop. -/
def formattingStage (item : DataItem) : Option (Option DataItem) :=
  match item.data with
  | .map id original processed timestamp _ =>
    some (some { item with
      data := .string ("Result[" ++ toString id ++ "]: " ++ original ++ " -> " ++
        lib.formatV processed ++ " (processed at " ++ toString timestamp ++ ")") })
  | _ => some (some item)

/-- `generateData`'s sample data. -/
def testData : List String :=
  ["123.45", "hello world", "42", "", "golang", "3.14159", "pipeline", "999"]

/-- The items `generateData` sends, in order. -/
def generateData : List DataItem := testData.enum.map fun (i, value) => ⟨i + 1, value, .nil⟩

/-- The pipeline `main` builds. -/
def mainPipeline : Pipeline DataItem :=
  (((newPipeline.addStage (validationStage lib)).addStage (transformationStage lib)).addStage
    (enrichmentStage lib)).addStage (formattingStage lib)

theorem mainPipeline_stages : (mainPipeline lib).stages =
    [validationStage lib, transformationStage lib, enrichmentStage lib, formattingStage lib] := rfl

/-! ## What the stages do to an item -/

/-- A body that passes every item on, keeping its `ID` and `Value`. -/
def KeepsKey (body : DataItem -> Option (Option DataItem)) : Prop :=
  forall item, exists item', body item = some (some item') ∧ item'.key = item.key

theorem transformationStage_keepsKey : KeepsKey (transformationStage lib) := by
  intro item
  unfold transformationStage
  split
  · exact ⟨_, rfl, rfl⟩
  · exact ⟨{ item with data := .string (String.mk item.value.toList.reverse) },
      by rw [reverseString_spec]; rfl, rfl⟩

theorem enrichmentStage_keepsKey : KeepsKey (enrichmentStage lib) := fun _ => ⟨_, rfl, rfl⟩

theorem formattingStage_keepsKey : KeepsKey (formattingStage lib) := by
  intro item
  unfold formattingStage
  split <;> exact ⟨_, rfl, rfl⟩

theorem KeepsKey.isSome {body : DataItem -> Option (Option DataItem)} (h : KeepsKey body)
    (item : DataItem) : (body item).isSome := by
  obtain ⟨_, h, -⟩ := h item
  simp [h]

theorem KeepsKey.filterMap {body : DataItem -> Option (Option DataItem)} (h : KeepsKey body)
    (items : List DataItem) : (items.filterMap (forward body)).map DataItem.key = items.map DataItem.key := by
  induction items with
  | nil => rfl
  | cons item items ih =>
    obtain ⟨item', h, hk⟩ := h item
    simp [List.filterMap_cons, forward, h, hk, ih]

theorem validationStage_isSome (item : DataItem) : (validationStage lib item).isSome := by
  dsimp only [validationStage]
  split <;> rfl

theorem forward_validationStage (item : DataItem) :
    forward (validationStage lib) item = if lib.trimLower item.value = "" then none
      else some { item with value := lib.trimLower item.value } := by
  by_cases hv : lib.trimLower item.value = "" <;> simp [forward, validationStage, hv]

theorem validation_keys (values : List (Nat × String)) :
    ((values.map fun (i, value) => (⟨i + 1, value, .nil⟩ : DataItem)).filterMap
        (forward (validationStage lib))).map DataItem.key =
      values.filterMap fun (i, value) =>
        if lib.trimLower value = "" then none else some ((i + 1 : Int), lib.trimLower value) := by
  induction values with
  | nil => rfl
  | cons p values ih =>
    obtain ⟨i, value⟩ := p
    simp only [List.map_cons, List.filterMap_cons, forward_validationStage]
    by_cases hv : lib.trimLower value = "" <;> simp_all [DataItem.key]

/-- Every run of `main`'s pipeline is at most 46 moves long, and some run
reaches a state where no goroutine can move.  In every such state `main` has
left its loop holding the test values whose cleaned form is not empty, in
order, each with its `ID`. -/
theorem main_collects :
    (exists moves s, run (mainPipeline lib).stages ((mainPipeline lib).execute generateData) moves =
      some s ∧ Final (mainPipeline lib).stages s) ∧
    forall moves s,
      run (mainPipeline lib).stages ((mainPipeline lib).execute generateData) moves = some s ->
      moves.length ≤ 46 ∧
        (Final (mainPipeline lib).stages s -> s.finished = true ∧
          s.results.map DataItem.key = testData.enum.filterMap fun (i, value) =>
            if lib.trimLower value = "" then none else some ((i + 1 : Int), lib.trimLower value)) := by
  have htotal : ∀ body ∈ (mainPipeline lib).stages, forall item, (body item).isSome := by
    simp only [mainPipeline_stages, List.mem_cons, List.mem_singleton, List.not_mem_nil, or_false]
    rintro body (rfl | rfl | rfl | rfl)
    · exact validationStage_isSome lib
    · exact (transformationStage_keepsKey lib).isSome
    · exact (enrichmentStage_keepsKey lib).isSome
    · exact (formattingStage_keepsKey lib).isSome
  refine ⟨exists_final _ _ _ le_rfl, fun moves s h => ?_⟩
  obtain ⟨hi, hlen⟩ := Inv.init.run moves h
  rw [pending_init] at hlen
  refine ⟨?_, fun hfinal => ?_⟩
  · simp [mainPipeline_stages, generateData, testData] at hlen
    omega
  have hf := final_finished hi.length htotal hfinal
  refine ⟨hf, ?_⟩
  rw [hi.complete hf, mainPipeline_stages]
  simp only [process, List.foldl_cons, List.foldl_nil, (formattingStage_keepsKey lib).filterMap,
    (enrichmentStage_keepsKey lib).filterMap, (transformationStage_keepsKey lib).filterMap]
  exact validation_keys lib _

end PipelineDemo
