import Passgen.Cli.Generate
import Passgen.Container.Finite
import Passgen.Container.Hashmap
import Passgen.Container.Insert
import Passgen.Container.Placed
import Passgen.Effect.Coupled
import Passgen.Effect.Rules
import Passgen.Generate.Bounds
import Passgen.Generate.Choose
import Passgen.Generate.Draws
import Passgen.Generate.Entropy
import Passgen.Generate.Fill
import Passgen.Generate.Generate
import Passgen.Generate.Json
import Passgen.Generate.Language
import Passgen.Generate.Literal
import Passgen.Generate.Repeats
import Passgen.Generate.Select
import Passgen.Generate.Sink
import Passgen.Generate.State
import Passgen.Generate.Walk
import Passgen.Generate.Width
import Passgen.Json.Text
import Passgen.Markov.Chain
import Passgen.Markov.Count
import Passgen.Markov.Leaf
import Passgen.Markov.Sound
import Passgen.Markov.Tree
import Passgen.Masked.Smear
import Passgen.Memory.Store
import Passgen.Parser.Balance
import Passgen.Parser.Grammar
import Passgen.Parser.Items
import Passgen.Parser.Parser
import Passgen.Parser.Print
import Passgen.Parser.Repeats
import Passgen.Parser.Run
import Passgen.Parser.Step
import Passgen.Parser.Token
import Passgen.Parser.Unicode
import Passgen.Pattern.Ast
import Passgen.Pattern.Fold
import Passgen.Pattern.Tree
import Passgen.Random.Buffer
import Passgen.Random.Short
import Passgen.Random.Source
import Passgen.Random.Stream
import Passgen.Random.Uniform
import Passgen.Residue.Table
import Passgen.Slots.Entries
import Passgen.Slots.Represents
import Passgen.Util.Utf8
import Passgen.Util.WellFormed
import Passgen.Weighted.Pick
import Passgen.Weighted.Select
import Passgen.Wordlist.Loaded
import Passgen.Wordlist.Wordlist
import Passgen.Container.Traced
import Passgen.Container.Positions
import Passgen.Markov.Growth
import Passgen.Container.Utf32
import Passgen.Generate.Overrun
import Passgen.Effect.Triple
import Passgen.Generate.Depth
import Passgen.Parser.Modifiers
import Passgen.Parser.Sets
import Passgen.Parser.Brackets
import Passgen.Generate.Surrogates
import Passgen.Util.Bulk
import Passgen.Util.IllFormed
import Passgen.Parser.Located
import Passgen.Parser.Escapes
import Passgen.Random.Monocypher
import Passgen.Random.Chacha
import Passgen.Container.Stack
import Passgen.Container.Room
import Passgen.Container.Binned
import Passgen.Cli.Config
import Passgen.Cli.Directives
import Passgen.Pattern.Special
import Passgen.Parser.Names
import Passgen.Bits.Shift
import Passgen.Random.Xorshift
import Passgen.Markov.Layout
import Passgen.Random.Open
import Passgen.Wordlist.Trained
import Passgen.Effect.Reached
import Passgen.Generate.Started
import Passgen.Generate.Loading
import Passgen.Parser.Packing
import Passgen.Bits.Powers
import Passgen.Random.Period
import Passgen.Random.Words
import Passgen.Generate.Surprise
import Passgen.Markov.Check
import Passgen.Generate.Halting
import Passgen.Generate.Matched
import Passgen.Generate.Walked
import Passgen.Cli.Document
import Passgen.Wordlist.Stored
import Passgen.Parser.Derives
import Passgen.Parser.Viable
import Passgen.Generate.Extent
