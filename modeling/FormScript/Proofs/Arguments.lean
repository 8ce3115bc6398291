import FormScript.Command.Options

/-!
# The groups of a command line

How an argument is read depends on the one in front of it: behind `--out` even `--help` is a path.
So arguments are not read one by one but in groups, and a group is what can be said on its own: a
flag, an option together with its path, or the input. A group shows in its first argument what it is
(`ArgumentGroup.eq_of_append_eq`), so a command line falls into groups in one way only, and taking
it in is taking in its groups one after the other (`Options.addAll_groups`).

What a command line says is then read off the groups as a whole, without regard to their order but
for paths given more than once (`Options.ofGroups`). **`parse_reads_groups`** puts this together.
-/

namespace FormScript

/-! ## Groups -/

/-- What a user may ask for without saying more. -/
inductive FlagOption where
  | help
  | tokens
  | ast
  | json
  | verbose
deriving DecidableEq, Repr

/-- How a flag is written. -/
def FlagOption.spellings : FlagOption → List String
  | help => ["--help", "-h"]
  | tokens => ["--tokens"]
  | ast => ["--ast"]
  | json => ["--json"]
  | verbose => ["--verbose", "-v"]

/-- What a path may be given for. -/
inductive PathOption where
  | out
  | config
deriving DecidableEq, Repr

/-- How an option with a path is written. -/
def PathOption.spellings : PathOption → List String
  | out => ["--out", "-o"]
  | config => ["--config"]

/-- Arguments that belong together. Only the input must not start with a dash; a path may be
anything. -/
inductive ArgumentGroup where
  | flag (flag : FlagOption) (spelling : String) (spelled : spelling ∈ flag.spellings)
  | path (option : PathOption) (spelling path : String) (spelled : spelling ∈ option.spellings)
  | input (argument : String) (plain : argument.startsWith "-" = false)
deriving DecidableEq

namespace ArgumentGroup

/-- The arguments of a group. -/
def arguments : ArgumentGroup → List String
  | flag _ spelling _ => [spelling]
  | path _ spelling p _ => [spelling, p]
  | input argument _ => [argument]

theorem length_arguments_pos (g : ArgumentGroup) : 0 < g.arguments.length := by
  cases g <;> exact Nat.succ_pos _

/-- The flag that a group is. -/
def flag? : ArgumentGroup → Option FlagOption
  | flag f _ _ => some f
  | _ => none

/-- The path that a group gives for an option. -/
def path? (option : PathOption) : ArgumentGroup → Option String
  | path o _ p _ => if o = option then some p else none
  | _ => none

/-- The input that a group is. -/
def input? : ArgumentGroup → Option String
  | input a _ => some a
  | _ => none

end ArgumentGroup

/-- The flags among groups. -/
def flagsOf (groups : List ArgumentGroup) : List FlagOption := groups.filterMap ArgumentGroup.flag?

/-- The paths that groups give for an option. -/
def pathsOf (option : PathOption) (groups : List ArgumentGroup) : List String :=
  groups.filterMap (ArgumentGroup.path? option)

/-- The inputs among groups. -/
def inputsOf (groups : List ArgumentGroup) : List String := groups.filterMap ArgumentGroup.input?

theorem filterMap_concat {α β : Type} (f : α → Option β) (l : List α) (a : α) :
    (l ++ [a]).filterMap f = l.filterMap f ++ (f a).toList := by
  rw [List.filterMap_append]
  cases h : f a <;> simp [h]

theorem inputsOf_concat (past : List ArgumentGroup) (g : ArgumentGroup) :
    inputsOf (past ++ [g]) = inputsOf past ++ g.input?.toList :=
  filterMap_concat _ past g

theorem pathsOf_concat (option : PathOption) (past : List ArgumentGroup) (g : ArgumentGroup) :
    pathsOf option (past ++ [g]) = pathsOf option past ++ (g.path? option).toList :=
  filterMap_concat _ past g

theorem flagsOf_concat (past : List ArgumentGroup) (g : ArgumentGroup) :
    flagsOf (past ++ [g]) = flagsOf past ++ g.flag?.toList :=
  filterMap_concat _ past g

/-- What groups say: the flags among them, the last path for each option, and the input. -/
def Options.ofGroups (groups : List ArgumentGroup) : Options where
  input := (inputsOf groups).head?
  out := (pathsOf .out groups).getLast?
  config := (pathsOf .config groups).getLast?
  tokens := (flagsOf groups).contains .tokens
  ast := (flagsOf groups).contains .ast
  json := (flagsOf groups).contains .json
  verbose := (flagsOf groups).contains .verbose
  help := (flagsOf groups).contains .help

/-! ## Taking in groups -/

namespace Options

/-- Takes in a flag. -/
def raise (o : Options) : FlagOption → Options
  | .help => { o with help := true }
  | .tokens => { o with tokens := true }
  | .ast => { o with ast := true }
  | .json => { o with json := true }
  | .verbose => { o with verbose := true }

/-- Takes in a path for an option. -/
def setPath (o : Options) (path : String) : PathOption → Options
  | .out => { o with out := some path }
  | .config => { o with config := some path }

/-- Takes in a group. -/
def addGroup (o : Options) : ArgumentGroup → Except UsageError Options
  | .flag f _ _ => .ok (o.raise f)
  | .path option _ path _ => .ok (o.setPath path option)
  | .input argument _ => o.addInput argument

theorem addAll_flag (o : Options) {f : FlagOption} {w : String} (h : w ∈ f.spellings)
    (rest : List String) : addAll o (w :: rest) = addAll (o.raise f) rest := by
  cases f with
  | help | verbose =>
    simp only [FlagOption.spellings, List.mem_cons, List.not_mem_nil, or_false] at h
    rcases h with rfl | rfl
    · rw [addAll]; rfl
    · rw [addAll]; rfl
  | tokens | ast | json =>
    rw [List.mem_singleton.mp h, addAll]
    rfl

theorem addAll_path (o : Options) {option : PathOption} {w : String} (h : w ∈ option.spellings)
    (path : String) (rest : List String) :
    addAll o (w :: path :: rest) = addAll (o.setPath path option) rest := by
  cases option with
  | out =>
    simp only [PathOption.spellings, List.mem_cons, List.not_mem_nil, or_false] at h
    rcases h with rfl | rfl
    · rw [addAll]; rfl
    · rw [addAll]; rfl
  | config =>
    rw [List.mem_singleton.mp h, addAll]
    rfl

theorem addAll_input (o : Options) {a : String} (h : a.startsWith "-" = false)
    (rest : List String) :
    addAll o (a :: rest) = (o.addInput a).bind fun o => addAll o rest := by
  -- Every other line of `addAll` asks for an argument that starts with a dash.
  rw [addAll]
  · cases o.addInput a <;> rfl
  all_goals
    intros
    subst_vars
    simp at h

/-- **A group is taken in as a whole**, whatever stands behind it. -/
theorem addAll_group (o : Options) (g : ArgumentGroup) (rest : List String) :
    addAll o (g.arguments ++ rest) = (o.addGroup g).bind fun o => addAll o rest := by
  cases g with
  | flag f w spelled => exact o.addAll_flag spelled rest
  | path option w p spelled => exact o.addAll_path spelled p rest
  | input a plain => exact o.addAll_input plain rest

/-- And so are groups, one after the other. -/
theorem addAll_groups (o : Options) (groups : List ArgumentGroup) :
    addAll o (groups.flatMap ArgumentGroup.arguments) = groups.foldlM addGroup o := by
  induction groups generalizing o with
  | nil => rfl
  | cons g groups ih =>
    rw [List.flatMap_cons, addAll_group, List.foldlM_cons]
    exact congrArg _ (funext ih)

/-- Arguments that are understood begin with a group. There is a case for each line of `addAll`. -/
theorem exists_group {o o' : Options} {arguments : List String}
    (h : addAll o arguments = .ok o') (hne : arguments ≠ []) :
    ∃ (g : ArgumentGroup) (rest : List String), g.arguments ++ rest = arguments := by
  unfold addAll at h
  split at h
  · exact absurd rfl hne
  · exact ⟨.flag .help "--help" (by decide), _, rfl⟩
  · exact ⟨.flag .help "-h" (by decide), _, rfl⟩
  · exact ⟨.flag .tokens "--tokens" (by decide), _, rfl⟩
  · exact ⟨.flag .ast "--ast" (by decide), _, rfl⟩
  · exact ⟨.flag .json "--json" (by decide), _, rfl⟩
  · exact ⟨.flag .verbose "--verbose" (by decide), _, rfl⟩
  · exact ⟨.flag .verbose "-v" (by decide), _, rfl⟩
  · cases h
  · cases h
  · exact ⟨.path .out "--out" _ (by decide), _, rfl⟩
  · exact ⟨.path .out "-o" _ (by decide), _, rfl⟩
  · cases h
  · exact ⟨.path .config "--config" _ (by decide), _, rfl⟩
  · rename_i a rest _ _ _ _ _ _ _ _ _ _ _ _ _
    cases hdash : a.startsWith "-" with
    | false => exact ⟨.input a hdash, rest, rfl⟩
    | true => simp [addInput, hdash] at h

/-- **What is understood falls into groups.** -/
theorem exists_groups {o o' : Options} {arguments : List String}
    (h : addAll o arguments = .ok o') :
    ∃ groups : List ArgumentGroup, groups.flatMap ArgumentGroup.arguments = arguments := by
  by_cases hne : arguments = []
  · exact ⟨[], hne.symm⟩
  obtain ⟨g, rest, rfl⟩ := exists_group h hne
  rw [addAll_group] at h
  cases hg : o.addGroup g with
  | error e =>
    rw [hg] at h
    cases h
  | ok o₁ =>
    rw [hg] at h
    have hshorter : rest.length < (g.arguments ++ rest).length := by
      have := g.length_arguments_pos
      rw [List.length_append]
      omega
    obtain ⟨groups, rfl⟩ := exists_groups (o := o₁) h
    exact ⟨g :: groups, rfl⟩
termination_by arguments.length

/-! ## What groups say -/

theorem ofGroups_flag (past : List ArgumentGroup) {f : FlagOption} {w : String}
    (h : w ∈ f.spellings) :
    ofGroups (past ++ [.flag f w h]) = (ofGroups past).raise f := by
  simp only [ofGroups, inputsOf_concat, pathsOf_concat, flagsOf_concat, ArgumentGroup.input?,
    ArgumentGroup.path?, ArgumentGroup.flag?, Option.toList_none, Option.toList_some,
    List.append_nil]
  cases f <;> simp [raise]

/-- A path takes the place of an earlier one. -/
theorem ofGroups_path (past : List ArgumentGroup) {option : PathOption} {w : String}
    (h : w ∈ option.spellings) (p : String) :
    ofGroups (past ++ [.path option w p h]) = (ofGroups past).setPath p option := by
  simp only [ofGroups, inputsOf_concat, pathsOf_concat, flagsOf_concat, ArgumentGroup.input?,
    ArgumentGroup.path?, ArgumentGroup.flag?, Option.toList_none, List.append_nil]
  cases option <;> simp [setPath]

theorem ofGroups_input {past : List ArgumentGroup} (hpast : inputsOf past = []) {a : String}
    (h : a.startsWith "-" = false) :
    ofGroups (past ++ [.input a h]) = { ofGroups past with input := some a } := by
  simp only [ofGroups, inputsOf_concat, pathsOf_concat, flagsOf_concat, ArgumentGroup.input?,
    ArgumentGroup.path?, ArgumentGroup.flag?, Option.toList_none, Option.toList_some,
    List.append_nil, hpast, List.nil_append, List.head?_cons]

/-- **One more group** is taken in unless it is a second input, and then all that is said is what
the groups say together. -/
theorem addGroup_ofGroups {past : List ArgumentGroup} (g : ArgumentGroup) {o : Options}
    (hpast : (inputsOf past).length ≤ 1) :
    (ofGroups past).addGroup g = .ok o ↔
      (inputsOf (past ++ [g])).length ≤ 1 ∧ o = ofGroups (past ++ [g]) := by
  rw [inputsOf_concat]
  cases g with
  | flag f w h =>
    rw [ofGroups_flag, addGroup, Except.ok.injEq]
    simpa [ArgumentGroup.input?, hpast] using eq_comm
  | path option w p h =>
    rw [ofGroups_path, addGroup, Except.ok.injEq]
    simpa [ArgumentGroup.input?, hpast] using eq_comm
  | input a h =>
    rw [addGroup, addInput, h]
    cases hinputs : inputsOf past with
    | nil =>
      rw [ofGroups_input hinputs]
      simpa [ofGroups, hinputs, ArgumentGroup.input?] using eq_comm
    | cons b more => simp [ofGroups, hinputs, ArgumentGroup.input?]

/-- Behind groups that were taken in, more are taken in as long as there is one input at most. -/
theorem foldlM_ofGroups {past : List ArgumentGroup} (groups : List ArgumentGroup) {o : Options}
    (hpast : (inputsOf past).length ≤ 1) :
    groups.foldlM addGroup (ofGroups past) = .ok o ↔
      (inputsOf (past ++ groups)).length ≤ 1 ∧ o = ofGroups (past ++ groups) := by
  induction groups generalizing past with
  | nil =>
    rw [List.append_nil, List.foldlM_nil]
    refine ⟨fun h => ⟨hpast, ?_⟩, fun h => h.2 ▸ rfl⟩
    cases h
    rfl
  | cons g groups ih =>
    rw [List.foldlM_cons, List.append_cons]
    by_cases hg : (inputsOf (past ++ [g])).length ≤ 1
    · rw [(addGroup_ofGroups g hpast).mpr ⟨hg, rfl⟩]
      exact ih hg
    · -- The second input is refused, and it is still there with the groups behind it.
      have hmore : ¬ (inputsOf (past ++ [g] ++ groups)).length ≤ 1 := by
        rw [inputsOf, List.filterMap_append, List.length_append]
        unfold inputsOf at hg
        omega
      refine ⟨fun h => ?_, fun h => absurd h.1 hmore⟩
      cases hadd : (ofGroups past).addGroup g with
      | error e =>
        rw [hadd] at h
        cases h
      | ok o₁ => exact absurd ((addGroup_ofGroups g hpast).mp hadd).1 hg

theorem parse_groups {groups : List ArgumentGroup} {o : Options} :
    parse (groups.flatMap ArgumentGroup.arguments) = .ok o ↔
      (inputsOf groups).length ≤ 1 ∧ o = ofGroups groups := by
  rw [parse, addAll_groups]
  exact @foldlM_ofGroups [] groups o (Nat.zero_le _)

end Options

/-! ## One way to read, and any order -/

theorem FlagOption.eq_of_spelled {f f' : FlagOption} {w : String} (h : w ∈ f.spellings)
    (h' : w ∈ f'.spellings) : f = f' := by
  cases f <;> cases f' <;> grind [FlagOption.spellings]

theorem PathOption.eq_of_spelled {o o' : PathOption} {w : String} (h : w ∈ o.spellings)
    (h' : w ∈ o'.spellings) : o = o' := by
  cases o <;> cases o' <;> grind [PathOption.spellings]

theorem FlagOption.not_spelled {f : FlagOption} {option : PathOption} {w : String}
    (h : w ∈ f.spellings) :
    w ∉ option.spellings := by
  cases f <;> cases option <;> grind [FlagOption.spellings, PathOption.spellings]

theorem FlagOption.startsWith_dash {f : FlagOption} {w : String} (h : w ∈ f.spellings) :
    w.startsWith "-" = true := by
  have hall : ∀ w ∈ f.spellings, w.startsWith "-" = true := by
    cases f <;> simp [FlagOption.spellings]
  exact hall w h

theorem PathOption.startsWith_dash {option : PathOption} {w : String} (h : w ∈ option.spellings) :
    w.startsWith "-" = true := by
  have hall : ∀ w ∈ option.spellings, w.startsWith "-" = true := by
    cases option <;> simp [PathOption.spellings]
  exact hall w h

namespace ArgumentGroup

/-- **A group shows in its first argument what it is.** -/
theorem eq_of_append_eq {g g' : ArgumentGroup} {rest rest' : List String}
    (h : g.arguments ++ rest = g'.arguments ++ rest') : g = g' ∧ rest = rest' := by
  cases g with
  | flag f w spelled =>
    cases g' with
    | flag f' w' spelled' =>
      obtain ⟨rfl, rfl⟩ := List.cons.inj h
      obtain rfl := FlagOption.eq_of_spelled spelled spelled'
      exact ⟨rfl, rfl⟩
    | path option w' p spelled' =>
      obtain ⟨rfl, -⟩ := List.cons.inj h
      exact absurd spelled' (FlagOption.not_spelled spelled)
    | input a plain =>
      obtain ⟨rfl, -⟩ := List.cons.inj h
      rw [FlagOption.startsWith_dash spelled] at plain
      cases plain
  | path option w p spelled =>
    cases g' with
    | flag f' w' spelled' =>
      obtain ⟨rfl, -⟩ := List.cons.inj h
      exact absurd spelled (FlagOption.not_spelled spelled')
    | path option' w' p' spelled' =>
      obtain ⟨rfl, hmore⟩ := List.cons.inj h
      obtain ⟨rfl, rfl⟩ := List.cons.inj hmore
      obtain rfl := PathOption.eq_of_spelled spelled spelled'
      exact ⟨rfl, rfl⟩
    | input a plain =>
      obtain ⟨rfl, -⟩ := List.cons.inj h
      rw [PathOption.startsWith_dash spelled] at plain
      cases plain
  | input a plain =>
    cases g' with
    | flag f' w' spelled' =>
      obtain ⟨rfl, -⟩ := List.cons.inj h
      rw [FlagOption.startsWith_dash spelled'] at plain
      cases plain
    | path option' w' p' spelled' =>
      obtain ⟨rfl, -⟩ := List.cons.inj h
      rw [PathOption.startsWith_dash spelled'] at plain
      cases plain
    | input a' plain' =>
      obtain ⟨rfl, rfl⟩ := List.cons.inj h
      exact ⟨rfl, rfl⟩

theorem groups_unique {groups groups' : List ArgumentGroup}
    (h : groups.flatMap arguments = groups'.flatMap arguments) : groups = groups' := by
  induction groups generalizing groups' with
  | nil =>
    cases groups' with
    | nil => rfl
    | cons g' groups' =>
      have := congrArg List.length h
      have := g'.length_arguments_pos
      simp only [List.flatMap_nil, List.flatMap_cons, List.length_append, List.length_nil] at *
      omega
  | cons g groups ih =>
    cases groups' with
    | nil =>
      have := congrArg List.length h
      have := g.length_arguments_pos
      simp only [List.flatMap_nil, List.flatMap_cons, List.length_append, List.length_nil] at *
      omega
    | cons g' groups' =>
      obtain ⟨rfl, hrest⟩ := eq_of_append_eq h
      rw [ih hrest]

end ArgumentGroup

/-- A list of one element at most has one order only. -/
theorem eq_of_perm_of_length_le_one {α : Type} {l l' : List α} (h : l.Perm l')
    (hl : l.length ≤ 1) : l = l' := by
  match l, hl with
  | [], _ => exact (List.nil_perm.mp h).symm
  | [a], _ => exact (List.perm_singleton.mp h.symm).symm

/-- **The order of groups does not matter** if no option is given two paths. -/
theorem Options.ofGroups_perm {groups groups' : List ArgumentGroup} (h : groups.Perm groups')
    (hinputs : (inputsOf groups).length ≤ 1)
    (hpaths : ∀ option, (pathsOf option groups).length ≤ 1) :
    ofGroups groups = ofGroups groups' := by
  have hinput := eq_of_perm_of_length_le_one (h.filterMap ArgumentGroup.input?) hinputs
  have hpath := fun option =>
    eq_of_perm_of_length_le_one (h.filterMap (ArgumentGroup.path? option)) (hpaths option)
  have hflag : ∀ f, (flagsOf groups).contains f = (flagsOf groups').contains f :=
    fun f => (h.filterMap ArgumentGroup.flag?).contains_eq
  simp only [ofGroups, hflag]
  simp only [inputsOf, pathsOf, hinput, hpath]

/-- **A command line is read by groups.** It is understood exactly if it falls into groups with one
input at most, and then it says what these groups say. It falls into groups in one way only. If no
option is given two paths, the same groups in any other order say the same. -/
theorem parse_reads_groups (arguments : List String) :
    (∀ o, Options.parse arguments = .ok o ↔
      ∃ groups : List ArgumentGroup, groups.flatMap ArgumentGroup.arguments = arguments ∧
        (inputsOf groups).length ≤ 1 ∧ o = Options.ofGroups groups) ∧
    ∀ groups : List ArgumentGroup, groups.flatMap ArgumentGroup.arguments = arguments →
      (∀ groups' : List ArgumentGroup,
        groups'.flatMap ArgumentGroup.arguments = arguments → groups' = groups) ∧
      ∀ o, Options.parse arguments = .ok o → (∀ option, (pathsOf option groups).length ≤ 1) →
        ∀ groups' : List ArgumentGroup, groups.Perm groups' →
          Options.parse (groups'.flatMap ArgumentGroup.arguments) = .ok o := by
  refine ⟨fun o => ⟨fun h => ?_, ?_⟩, ?_⟩
  · obtain ⟨groups, rfl⟩ := Options.exists_groups h
    exact ⟨groups, rfl, Options.parse_groups.mp h⟩
  · rintro ⟨groups, rfl, hgroups⟩
    exact Options.parse_groups.mpr hgroups
  · rintro groups rfl
    refine ⟨fun groups' h => ArgumentGroup.groups_unique h, fun o ho hpaths groups' hperm => ?_⟩
    obtain ⟨hinputs, rfl⟩ := Options.parse_groups.mp ho
    have hlength : (inputsOf groups).length = (inputsOf groups').length :=
      (hperm.filterMap ArgumentGroup.input?).length_eq
    exact Options.parse_groups.mpr
      ⟨hlength ▸ hinputs, Options.ofGroups_perm hperm hinputs hpaths⟩

/-- A path that looks like a flag is a path wherever its group stands. -/
theorem parse_reads_path_like_flag :
    Options.parse ["demo", "--out", "--help", "-v"]
        = .ok { input := some "demo", out := some "--help", verbose := true } ∧
      Options.parse ["-v", "demo", "--out", "--help"]
        = .ok { input := some "demo", out := some "--help", verbose := true } := by
  let input : ArgumentGroup := .input "demo" (by simp)
  let out : ArgumentGroup := .path .out "--out" "--help" (by decide)
  let verbose : ArgumentGroup := .flag .verbose "-v" (by decide)
  obtain ⟨haccepts, horder⟩ := parse_reads_groups ["demo", "--out", "--help", "-v"]
  have hparse := (haccepts { input := some "demo", out := some "--help", verbose := true }).mpr
    ⟨[input, out, verbose], rfl, Nat.le_refl 1, rfl⟩
  refine ⟨hparse, (horder [input, out, verbose] rfl).2 _ hparse ?_ [verbose, input, out] ?_⟩
  · intro option
    cases option
    · exact Nat.le_refl 1
    · exact Nat.zero_le 1
  · exact @List.perm_append_comm _ [input, out] [verbose]

end FormScript
