import Sccache.Text
import Sccache.Path
import Sccache.Io
import Sccache.Msvc.Arguments
import Sccache.Msvc.Classifier
import Sccache.Msvc.Decision
import Sccache.Msvc.Detect
import Sccache.Msvc.Preprocess
import Sccache.Msvc.Depfile
import Sccache.Msvc.Compile
import Sccache.Msvc.Pipeline
