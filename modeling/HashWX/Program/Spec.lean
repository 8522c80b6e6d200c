import HashWX.Program.WellFormed
import Mathlib.Tactic.IntervalCases

/-!
# Program generation as specified

Section 2.3 of the specification with its appendices B and C: from sixteen words it
fixes, for every index of the program, the opcode and the arguments that table 2.2.1
lists there. The code is compared with it field by field.
-/

namespace HashWX.Spec

open Siphash ForLoop

/-- Appendix C, one number of eight digits for each permutation. -/
def sourcePermutations : List Nat := [
  03145672, 03146752, 03147652, 03415672, 03416752, 03417652, 03451672, 03456172, 03456712,
  03457612, 03461752, 03465172, 03465712, 03467152, 03471652, 03475612, 03476152, 03541672,
  03546172, 03546712, 03547612, 03641752, 03645172, 03645712, 03647152, 03741652, 03745612,
  03746152, 04153672, 04156372, 04156732, 04157632, 04163752, 04165372, 04165732, 04167352,
  04173652, 04175632, 04176352, 04315672, 04316752, 04317652, 04351672, 04356172, 04356712,
  04357612, 04361752, 04365172, 04365712, 04367152, 04371652, 04375612, 04376152, 04513672,
  04516372, 04516732, 04517632, 04561372, 04561732, 04563172, 04563712, 04567132, 04567312,
  04571632, 04573612, 04576132, 04576312, 04613752, 04615372, 04615732, 04617352, 04651372,
  04651732, 04653172, 04653712, 04657132, 04657312, 04671352, 04673152, 04675132, 04675312,
  04713652, 04715632, 04716352, 04751632, 04753612, 04756132, 04756312, 04761352, 04763152,
  04765132, 04765312, 05143672, 05146372, 05146732, 05147632, 05341672, 05346172, 05346712,
  05347612, 05413672, 05416372, 05416732, 05417632, 05461372, 05461732, 05463172, 05463712,
  05467132, 05467312, 05471632, 05473612, 05476132, 05476312, 05641372, 05641732, 05643172,
  05643712, 05647132, 05647312, 05741632, 05743612, 05746132, 05746312, 06143752, 06145372,
  06145732, 06147352, 06341752, 06345172, 06345712, 06347152, 06413752, 06415372, 06415732,
  06417352, 06451372, 06451732, 06453172, 06453712, 06457132, 06457312, 06471352, 06473152,
  06475132, 06475312, 06541372, 06541732, 06543172, 06543712, 06547132, 06547312, 06741352,
  06743152, 06745132, 06745312, 07143652, 07145632, 07146352, 07341652, 07345612, 07346152,
  07413652, 07415632, 07416352, 07451632, 07453612, 07456132, 07456312, 07461352, 07463152,
  07465132, 07465312, 07541632, 07543612, 07546132, 07546312, 07641352, 07643152, 07645132,
  07645312, 23145670, 23146750, 23147650, 23415670, 23416750, 23417650, 23451670, 23456170,
  23456710, 23457610, 23461750, 23465170, 23465710, 23467150, 23471650, 23475610, 23476150,
  23541670, 23546170, 23546710, 23547610, 23641750, 23645170, 23645710, 23647150, 23741650,
  23745610, 23746150, 24153670, 24156370, 24156730, 24157630, 24163750, 24165370, 24165730,
  24167350, 24173650, 24175630, 24176350, 24315670, 24316750, 24317650, 24351670, 24356170,
  24356710, 24357610, 24361750, 24365170, 24365710, 24367150, 24371650, 24375610, 24376150,
  24513670, 24516370, 24516730, 24517630, 24561370, 24561730, 24563170, 24563710, 24567130,
  24567310, 24571630, 24573610, 24576130, 24576310, 24613750, 24615370, 24615730, 24617350,
  24651370, 24651730, 24653170, 24653710, 24657130, 24657310, 24671350, 24673150, 24675130,
  24675310, 24713650, 24715630, 24716350, 24751630, 24753610, 24756130, 24756310, 24761350,
  24763150, 24765130, 24765310, 25143670, 25146370, 25146730, 25147630, 25341670, 25346170,
  25346710, 25347610, 25413670, 25416370, 25416730, 25417630, 25461370, 25461730, 25463170,
  25463710, 25467130, 25467310, 25471630, 25473610, 25476130, 25476310, 25641370, 25641730,
  25643170, 25643710, 25647130, 25647310, 25741630, 25743610, 25746130, 25746310, 26143750,
  26145370, 26145730, 26147350, 26341750, 26345170, 26345710, 26347150, 26413750, 26415370,
  26415730, 26417350, 26451370, 26451730, 26453170, 26453710, 26457130, 26457310, 26471350,
  26473150, 26475130, 26475310, 26541370, 26541730, 26543170, 26543710, 26547130, 26547310,
  26741350, 26743150, 26745130, 26745310, 27143650, 27145630, 27146350, 27341650, 27345610,
  27346150, 27413650, 27415630, 27416350, 27451630, 27453610, 27456130, 27456310, 27461350,
  27463150, 27465130, 27465310, 27541630, 27543610, 27546130, 27546310, 27641350, 27643150,
  27645130, 27645310, 42153670, 42156370, 42156730, 42157630, 42163750, 42165370, 42165730,
  42167350, 42173650, 42175630, 42176350, 42315670, 42316750, 42317650, 42351670, 42356170,
  42356710, 42357610, 42361750, 42365170, 42365710, 42367150, 42371650, 42375610, 42376150,
  42513670, 42516370, 42516730, 42517630, 42561370, 42561730, 42563170, 42563710, 42567130,
  42567310, 42571630, 42573610, 42576130, 42576310, 42613750, 42615370, 42615730, 42617350,
  42651370, 42651730, 42653170, 42653710, 42657130, 42657310, 42671350, 42673150, 42675130,
  42675310, 42713650, 42715630, 42716350, 42751630, 42753610, 42756130, 42756310, 42761350,
  42763150, 42765130, 42765310, 43156702, 43157602, 43165702, 43175602, 43516702, 43517602,
  43561702, 43567102, 43571602, 43576102, 43615702, 43651702, 43657102, 43675102, 43715602,
  43751602, 43756102, 43765102, 45163702, 45167302, 45173602, 45176302, 45316702, 45317602,
  45361702, 45367102, 45371602, 45376102, 45613702, 45617302, 45671302, 45673102, 45713602,
  45716302, 45761302, 45763102, 46153702, 46157302, 46175302, 46315702, 46351702, 46357102,
  46375102, 46513702, 46517302, 46571302, 46573102, 46715302, 46751302, 46753102, 47153602,
  47156302, 47165302, 47315602, 47351602, 47356102, 47365102, 47513602, 47516302, 47561302,
  47563102, 47615302, 47651302, 47653102, 62143750, 62145370, 62145730, 62147350, 62341750,
  62345170, 62345710, 62347150, 62413750, 62415370, 62415730, 62417350, 62451370, 62451730,
  62453170, 62453710, 62457130, 62457310, 62471350, 62473150, 62475130, 62475310, 62541370,
  62541730, 62543170, 62543710, 62547130, 62547310, 62741350, 62743150, 62745130, 62745310,
  63145702, 63415702, 63451702, 63457102, 63475102, 63541702, 63547102, 63745102, 64153702,
  64157302, 64175302, 64315702, 64351702, 64357102, 64375102, 64513702, 64517302, 64571302,
  64573102, 64715302, 64751302, 64753102, 65143702, 65147302, 65341702, 65347102, 65413702,
  65417302, 65471302, 65473102, 65741302, 65743102, 67145302, 67345102, 67415302, 67451302,
  67453102, 67541302, 67543102, 72143650, 72145630, 72146350, 72341650, 72345610, 72346150,
  72413650, 72415630, 72416350, 72451630, 72453610, 72456130, 72456310, 72461350, 72463150,
  72465130, 72465310, 72541630, 72543610, 72546130, 72546310, 72641350, 72643150, 72645130,
  72645310, 73145602, 73415602, 73451602, 73456102, 73465102, 73541602, 73546102, 73645102,
  74153602, 74156302, 74165302, 74315602, 74351602, 74356102, 74365102, 74513602, 74516302,
  74561302, 74563102, 74615302, 74651302, 74653102, 75143602, 75146302, 75341602, 75346102,
  75413602, 75416302, 75461302, 75463102, 75641302, 75643102, 76145302, 76345102, 76415302,
  76451302, 76453102, 76541302, 76543102]

/-- Digit `i` of an eight-digit number, from the left. -/
def digit (n : Nat) (i : Fin 8) : Nat := n / 10 ^ (7 - i.val) % 10

/-- The least significant and the upper 32 bits of a number. -/
def low (w : Word) : Nat := w.toNat % 2 ^ 32
def high (w : Word) : Nat := w.toNat / 2 ^ 32

/-- Table 2.3.1.1. -/
def xasTable : Nat → InstrType
  | 0 => .xorror | 1 => .addror | 2 => .subror
  | 3 => .xorasr | 4 => .addasr | 5 => .subasr
  | 6 => .xorlsr | 7 => .addlsr | _ => .sublsr

/-- Table 2.3.1.2. -/
def mulTable : Nat → InstrType
  | 0 => .mulor | 1 => .mulxor | _ => .muladd

/-- The last column of table 1.4.2: the values an immediate may take. -/
def permittedImms : InstrType → List Nat
  | .mulor | .mulxor | .muladd => [1, 9, 33]
  | .rmcg | .xorror | .addror | .subror => List.range' 1 63
  | .xorasr | .addasr | .subasr | .xorlsr | .addlsr | .sublsr => [1, 2, 3]
  | _ => []

/-- Appendix B, with the selecting numbers as an argument. -/
def fisherYatesShuffle (gen : Nat → Nat) : Nat → Nat :=
  forLoop 7 (fun dst k =>
    let i := k.val + 1
    let dst := Function.update dst i i
    let j := gen (i - 1) % (i + 1)
    let dst := Function.update dst i (dst j)
    Function.update dst j i) (Function.update (fun _ => 0) 0 0)

/-- An entry of a specified program; BRANCH and HALT have no arguments. -/
structure Entry where
  opcode : InstrType
  args : Option (Nat × Nat × Nat)

section Section23

variable (gen : Nat → Word)

/-- 2.3.1, by the index of the instruction. -/
def opcode : Fin 10 → InstrType
  | 0 => .rmcg
  | 1 => xasTable (low (gen 0) % 9)
  | 2 => mulTable (low (gen 1) % 3)
  | 3 => xasTable (low (gen 2) % 9)
  | 4 => mulTable (low (gen 3) % 3)
  | 5 => xasTable (low (gen 4) % 9)
  | 6 => mulTable (low (gen 5) % 3)
  | 7 => .branch
  | 8 => xasTable (low (gen 6) % 9)
  | 9 => .halt

/-- 2.3.2, by the position in the permutation. -/
def destination (k : Nat) : Nat := fisherYatesShuffle (fun i => high (gen i)) k

/-- 2.3.3: position 0 is the RMCG instruction, the others follow appendix C. -/
def source (k : Fin 8) : Nat :=
  if k = 0 then
    if (gen 7).toNat % 2 = 0 then 8 else 9
  else
    destination gen (digit (sourcePermutations.getD ((gen 7).toNat % 625) 0) k)

/-- 2.3.4. -/
def immediate (opcode : InstrType) (k : Fin 8) : Nat :=
  (permittedImms opcode).getD ((gen (8 + k)).toNat % (permittedImms opcode).length) 0

/-- The entry of an instruction that takes its arguments from position `k`. -/
def argsEntry (index : Fin 10) (k : Fin 8) : Entry :=
  { opcode := opcode gen index
    args := some (destination gen k, source gen k, immediate gen (opcode gen index) k) }

/-- The program of section 2.3. -/
def program : Fin 10 → Entry
  | 0 => argsEntry gen 0 0
  | 1 => argsEntry gen 1 1
  | 2 => argsEntry gen 2 2
  | 3 => argsEntry gen 3 3
  | 4 => argsEntry gen 4 4
  | 5 => argsEntry gen 5 5
  | 6 => argsEntry gen 6 6
  | 7 => { opcode := opcode gen 7, args := none }
  | 8 => argsEntry gen 8 7
  | 9 => { opcode := opcode gen 9, args := none }

end Section23

/-- An instruction record agrees with an entry in every field the entry specifies. -/
def Agrees (x : Instruction) (e : Entry) : Prop :=
  x.opcode = e.opcode ∧
    ∀ dst src imm, e.args = some (dst, src, imm) → x.dst = dst ∧ x.src = src ∧ x.imm = imm

/-! ## The table of permutations -/

/-- The number that lists the entries of a row. -/
def rowNumber (p : Fin 8 → Fin 8) : Nat :=
  10000000 * (p 0).val + 1000000 * (p 1).val + 100000 * (p 2).val + 10000 * (p 3).val +
    1000 * (p 4).val + 100 * (p 5).val + 10 * (p 6).val + (p 7).val

theorem digit_rowNumber (p : Fin 8 → Fin 8) (i : Fin 8) : digit (rowNumber p) i = (p i).val := by
  have h0 := (p 0).isLt
  have h1 := (p 1).isLt
  have h2 := (p 2).isLt
  have h3 := (p 3).isLt
  have h4 := (p 4).isLt
  have h5 := (p 5).isLt
  have h6 := (p 6).isLt
  have h7 := (p 7).isLt
  match i with
  | 0 | 1 | 2 | 3 | 4 | 5 | 6 | 7 =>
    simp only [digit, rowNumber, Fin.isValue, Fin.coe_ofNat_eq_mod, Nat.reduceMod, Nat.reduceSub,
      Nat.reducePow]
    omega

/-- The table of the code is appendix C, row by row. -/
theorem srcLookup_eq : srcLookup.map rowNumber = sourcePermutations := by decide +kernel

theorem digit_sourcePermutations (select : Word) (i : Fin 8) :
    digit (sourcePermutations.getD (select.toNat % 625) 0) i = (srcPerm select i).val := by
  have hk : select.toNat % 625 < srcLookup.length := by
    rw [srcLookup_length]
    exact Nat.mod_lt _ (by decide)
  rw [← srcLookup_eq, List.getD_eq_getElem?_getD, List.getElem?_map,
    List.getElem?_eq_getElem hk, Option.map_some, Option.getD_some, digit_rowNumber]
  rfl

/-! ## The code against the section -/

theorem low_eq (w : Word) : low w = (selectLo w).toNat := (BitVec.toNat_setWidth 32 w).symm

theorem high_eq (w : Word) : high w = (selectHi w).toNat := by
  have hlt : w.toNat / 2 ^ 32 < 2 ^ 32 := by have := w.isLt; omega
  rw [selectHi, BitVec.toNat_setWidth, BitVec.toNat_ushiftRight, Nat.shiftRight_eq_div_pow,
    Nat.mod_eq_of_lt hlt, high]

theorem xasTable_low (w : Word) : xasTable (low w % 9) = (genXasOpcode w).1 := by
  have h : ∀ k : Fin 9, xasTable k.val = xasLookup k := by
    intro k
    match k with
    | 0 | 1 | 2 | 3 | 4 | 5 | 6 | 7 | 8 => rfl
  rw [low_eq]
  exact h (Fin.ofNat 9 (selectLo w).toNat)

theorem mulTable_low (w : Word) : mulTable (low w % 3) = (genMulOpcode w).1 := by
  have h : ∀ k : Fin 3, mulTable k.val = mulOpcode k := by
    intro k
    match k with
    | 0 | 1 | 2 => rfl
  rw [low_eq]
  exact h (Fin.ofNat 3 (selectLo w).toNat)

/-- The two shuffles write the same prefix after every iteration. -/
theorem fisherYatesShuffle_eq (dst : Vector Nat 8) (select : Fin 7 → BitVec 32) (gen : Nat → Nat)
    (hgen : ∀ i : Fin 7, gen i = (select i).toNat) (i : Fin 8) :
    fisherYatesShuffle gen i = (genDestinations dst select)[i] := by
  refine forLoop_relation (n := 7)
    (fun k (a : Nat → Nat) (b : Vector Nat 8) => ∀ x : Fin 8, x.val ≤ k → a x = b[x])
    ?_ ?_ i (by omega)
  · intro x hx
    obtain rfl : x = 0 := Fin.ext (by simpa using hx)
    simp [Vector.getElem_fin]
  · intro k a b hab x hx
    have hj : gen k % (k.val + 2) = (shuffleIndex select k).val := by rw [hgen]; rfl
    have hle : (shuffleIndex select k).val < k.val + 2 := Nat.mod_lt _ (by omega)
    generalize shuffleIndex select k = j at hj hle ⊢
    simp only [InsideOut.insert_get, Fin.ext_iff, Fin.val_succ, Nat.add_sub_cancel, Nat.add_assoc,
      Nat.reduceAdd, hj, Function.update_apply]
    by_cases hxj : x.val = j.val
    · rw [if_pos hxj, if_pos hxj]
    · rw [if_neg hxj, if_neg hxj]
      by_cases hxk : x.val = k.val + 1
      · have hjk : j.val ≠ k.val + 1 := fun h => hxj (hxk.trans h.symm)
        rw [if_pos hxk, if_pos hxk, if_neg hjk, hab j (by omega)]
      · rw [if_neg hxk, if_neg hxk, if_neg hxk, hab x (by omega)]

section Section23

variable (g : Nat → Word)

theorem destination_eq (k : Fin 8) : destination g k = (buildDst g)[k] := by
  refine fisherYatesShuffle_eq _ _ _ (fun i => ?_) k
  rw [high_eq]
  match i with
  | 0 | 1 | 2 | 3 | 4 | 5 | 6 => rfl

theorem source_eq (k : Fin 8) : source g k = (buildSrc g)[k] := by
  by_cases hk : k = 0
  · subst hk
    rw [buildSrc_zero, source, if_pos rfl]
    split <;> omega
  · rw [buildSrc_eq g hk, source, if_neg hk, digit_sourcePermutations, destination_eq, buildDst_eq,
      slotSrc]

/-- `gen_imm` selects among the permitted values of an opcode with an immediate. -/
theorem immediate_eq (opcode : InstrType) (hop : permittedImms opcode ≠ []) (k : Fin 8) :
    immediate g opcode k = genImm opcode (g (8 + k)) := by
  have hmul : ∀ n : Nat, [1, 9, 33].getD (n % 3) 0 = mulImms (Fin.ofNat 3 n) := by
    have h : ∀ j : Fin 3, [1, 9, 33].getD j.val 0 = mulImms j := by decide
    exact fun n => h (Fin.ofNat 3 n)
  have hrot : ∀ n : Nat, (List.range' 1 63).getD (n % 63) 0 = 1 + n % 63 := by
    have h : ∀ j : Fin 63, (List.range' 1 63).getD j.val 0 = 1 + j.val := by decide
    exact fun n => h (Fin.ofNat 63 n)
  have hshift : ∀ n : Nat, [1, 2, 3].getD (n % 3) 0 = 1 + n % 3 := by
    have h : ∀ j : Fin 3, [1, 2, 3].getD j.val 0 = 1 + j.val := by decide
    exact fun n => h (Fin.ofNat 3 n)
  cases opcode with
  | mulor | mulxor | muladd => exact hmul _
  | rmcg | xorror | addror | subror => exact hrot _
  | xorasr | addasr | subasr | xorlsr | addlsr | sublsr => exact hshift _
  | branch | halt | invalid => exact absurd rfl hop

/-- The instruction of a slot agrees with the entry at the index where it stands. -/
theorem agrees_argsEntry (index : Fin 10) (k : Fin 8) (hop : buildOpcode g k = opcode g index)
    (himm : permittedImms (opcode g index) ≠ []) :
    Agrees (buildInstruction g k) (argsEntry g index k) := by
  refine ⟨hop, ?_⟩
  intro dst src imm h
  simp only [argsEntry, Option.some.injEq, Prod.mk.injEq] at h
  obtain ⟨rfl, rfl, rfl⟩ := h
  rw [destination_eq, source_eq, immediate_eq g _ himm, ← hop]
  exact ⟨rfl, rfl, rfl⟩

theorem xasTable_imms (n : Nat) : permittedImms (xasTable n) ≠ [] := by
  unfold xasTable
  split <;> simp [permittedImms, List.range']

theorem mulTable_imms (n : Nat) : permittedImms (mulTable n) ≠ [] := by
  unfold mulTable
  split <;> simp [permittedImms]

theorem agrees_noArgs (x : Instruction) (index : Fin 10) (h : x.opcode = opcode g index) :
    Agrees x { opcode := opcode g index, args := none } :=
  ⟨h, fun _ _ _ h => by cases h⟩

theorem buildProgram_agrees (old : Program) (index : Fin 10) :
    Agrees (buildProgram g old)[index] (program g index) := by
  match index with
  | 0 => exact agrees_argsEntry g 0 0 rfl (by simp [opcode, permittedImms, List.range'])
  | 1 => exact agrees_argsEntry g 1 1 (xasTable_low _).symm (xasTable_imms _)
  | 2 => exact agrees_argsEntry g 2 2 (mulTable_low _).symm (mulTable_imms _)
  | 3 => exact agrees_argsEntry g 3 3 (xasTable_low _).symm (xasTable_imms _)
  | 4 => exact agrees_argsEntry g 4 4 (mulTable_low _).symm (mulTable_imms _)
  | 5 => exact agrees_argsEntry g 5 5 (xasTable_low _).symm (xasTable_imms _)
  | 6 => exact agrees_argsEntry g 6 6 (mulTable_low _).symm (mulTable_imms _)
  | 7 => exact agrees_noArgs g _ 7 rfl
  | 8 => exact agrees_argsEntry g 8 7 (xasTable_low _).symm (xasTable_imms _)
  | 9 => exact agrees_noArgs g _ 9 rfl

end Section23

/-- Program `i` of a generated list is the program of section 2.3 for the words
`16 * i` to `16 * i + 15` of the stream. -/
theorem programListGenerate_agrees {σ : Type} (next : σ → Word × σ) (gen : σ) (list : ProgramList)
    (i : Fin 32) (index : Fin 10) :
    Agrees (programListGenerate next list gen).1[i][index]
      (program (fun j => OutputStream.output next gen (16 * i + j)) index) := by
  rw [programListGenerate_eq]
  exact buildProgram_agrees _ _ _

end HashWX.Spec
