import OneBitSDR.CicGain
import OneBitSDR.Cyclone.AmDemodReset
import OneBitSDR.Cyclone.PowerUp
import OneBitSDR.Cyclone.Tuning
import OneBitSDR.Lattice.SerialLink
import OneBitSDR.Lattice.Tuning
import OneBitSDR.LocalOscillators
import OneBitSDR.Ps2.Handshake
import OneBitSDR.Ps2.Interrupt
import OneBitSDR.Ps2.Reset
import OneBitSDR.Software.PrintDec
import OneBitSDR.Software.Ps2Console
import OneBitSDR.Software.Sdr
