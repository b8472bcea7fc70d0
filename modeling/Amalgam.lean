import Amalgam.Parser.Initializers
import Amalgam.Parser.Sizes
import Amalgam.Parser.Inference
import Amalgam.Parser.Nesting
import Amalgam.Parser.FlatTrees
import Amalgam.Parser.Lines
import Amalgam.Driver.Loop
import Amalgam.Cxx.Algorithm
import Amalgam.Util.Strings
import Amalgam.Parser.Splitting
import Amalgam.Parser.Effects
import Amalgam.Machine.Custody
import Amalgam.Util.Expected
import Amalgam.Util.Reports
import Amalgam.Templates.Preparation
import Amalgam.Templates.Loads
import Amalgam.Terms.Evaluation
import Amalgam.Codegen.Words
import Amalgam.Outline.Forest
import Amalgam.Parser.Dump
import Amalgam.Chain.Fold
import Amalgam.Codegen.Readings
import Amalgam.Driver.Transcript
import Amalgam.Parser.Aborts
import Amalgam.Templates.Denotation
import Amalgam.Pegtl.Parametric
import Amalgam.Pegtl.Contract
import Amalgam.Parser.Grammar
import Amalgam.Pegtl.Must
import Amalgam.Pegtl.Replay
import Amalgam.Cxx.Search
import Amalgam.Util.Copies
import Amalgam.Util.Switch
import Amalgam.Peg.Basic
import Amalgam.Pegtl.Reading
import Amalgam.Peg.Evaluation
import Amalgam.Pegtl.Returning
import Amalgam.Pegtl.Traceback
