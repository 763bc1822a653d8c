import ColorMarkup.Text.BreakClass
/-!
Grapheme clusters, the user-perceived characters of a text, by the extended rules
of Unicode 17.0. What the rules need to know of the cluster read so far is a small
summary, its `ClusterTail`, so one pass from left to right suffices. Nothing is
lost (`flatten_graphemes`) and no cluster is empty (`ne_nil_of_mem_graphemes`).
-/
namespace ColorMarkup

/-- How far the end of a cluster has got towards two joined pictographs:
`opened` after a pictograph and extending characters, `joined` after a joiner. -/
inductive PictographTail where
  | none | opened | joined
  deriving DecidableEq, Repr

/-- How far the end of a cluster has got towards a conjunct: `opened` after a
consonant, `linked` once a linker has followed it. -/
inductive ConjunctTail where
  | none | opened | linked
  deriving DecidableEq, Repr

/-- What the rules remember of the cluster that is being read. -/
structure ClusterTail where
  last : BreakClass
  pictograph : PictographTail
  conjunct : ConjunctTail
  /-- The cluster ends in an odd number of regional letters. -/
  halfFlag : Bool
  deriving DecidableEq, Repr

namespace ClusterTail

/-- Progress towards joined pictographs after one more character. -/
def pictographAfter (before : PictographTail) : BreakClass → PictographTail
  | .pictograph => .opened
  | .extend | .conjunctLinker | .nonJoiner => if before = .opened then .opened else .none
  | .joiner => if before = .opened then .joined else .none
  | _ => .none

/-- Progress towards a conjunct after one more character. -/
def conjunctAfter (before : ConjunctTail) : BreakClass → ConjunctTail
  | .consonant => .opened
  | .extend | .joiner => before
  | .conjunctLinker => if before = .none then .none else .linked
  | _ => .none

/-- The tail of a cluster of one character. -/
def start (c : BreakClass) : ClusterTail :=
  ⟨c, pictographAfter .none c, conjunctAfter .none c, c == .regional⟩

def push (tail : ClusterTail) (c : BreakClass) : ClusterTail :=
  ⟨c, pictographAfter tail.pictograph c, conjunctAfter tail.conjunct c,
    c == .regional && !tail.halfFlag⟩

/-- Whether the next character belongs to the cluster. -/
def joins (tail : ClusterTail) (next : BreakClass) : Bool :=
  match tail.last, next with
  | .carriageReturn, .lineFeed => true
  | .carriageReturn, _ | .lineFeed, _ | .control, _ => false
  | _, .carriageReturn | _, .lineFeed | _, .control => false
  | .hangulL, .hangulL | .hangulL, .hangulV | .hangulL, .hangulLV | .hangulL, .hangulLVT => true
  | .hangulV, .hangulV | .hangulV, .hangulT | .hangulLV, .hangulV | .hangulLV, .hangulT => true
  | .hangulT, .hangulT | .hangulLVT, .hangulT => true
  | _, .extend | _, .conjunctLinker | _, .nonJoiner | _, .joiner | _, .spacingMark => true
  | .prepended, _ => true
  | _, .consonant => tail.conjunct == .linked
  | _, .pictograph => tail.pictograph == .joined
  | _, .regional => tail.halfFlag
  | _, _ => false

end ClusterTail

namespace Text

/-- What is left of the cluster that ends in `tail`, and the clusters after it. -/
def continueCluster (tail : ClusterTail) : Text → Text × List Text
  | [] => ([], [])
  | c :: rest =>
    let next := BreakClass.of c
    if tail.joins next then
      let (cluster, clusters) := continueCluster (tail.push next) rest
      (c :: cluster, clusters)
    else
      let (cluster, clusters) := continueCluster (.start next) rest
      ([], (c :: cluster) :: clusters)

/-- The grapheme clusters of a text, in order. -/
def graphemes : Text → List Text
  | [] => []
  | c :: rest =>
    let (cluster, clusters) := continueCluster (.start (BreakClass.of c)) rest
    (c :: cluster) :: clusters

theorem continueCluster_append_flatten (tail : ClusterTail) (text : Text) :
    (continueCluster tail text).1 ++ (continueCluster tail text).2.flatten = text := by
  induction text generalizing tail with
  | nil => rfl
  | cons c rest ih =>
    rw [continueCluster]
    split
    · simp [ih]
    · simp [ih]

theorem ne_nil_of_mem_continueCluster {tail : ClusterTail} {text cluster : Text}
    (h : cluster ∈ (continueCluster tail text).2) : cluster ≠ [] := by
  induction text generalizing tail with
  | nil => simp [continueCluster] at h
  | cons c rest ih =>
    rw [continueCluster] at h
    split at h
    · exact ih h
    · rcases List.mem_cons.1 h with rfl | h
      · simp
      · exact ih h

@[simp] theorem graphemes_nil : graphemes [] = [] := rfl

theorem flatten_graphemes (text : Text) : (graphemes text).flatten = text := by
  cases text with
  | nil => rfl
  | cons c rest => simp [graphemes, continueCluster_append_flatten]

theorem ne_nil_of_mem_graphemes {text cluster : Text} (h : cluster ∈ graphemes text) :
    cluster ≠ [] := by
  cases text with
  | nil => simp at h
  | cons c rest =>
    rcases List.mem_cons.1 h with rfl | h
    · simp
    · exact ne_nil_of_mem_continueCluster h

end Text
end ColorMarkup
